import VTest.Lib.Text
import VTest.Term.TekenSafe

/-!
# VTest.Term.TekenRead

What the bytes of a process are read as.

* `utf8_text_decoded`: characters in UTF-8, whatever came before them.
* `Idle`, `Idle.byte`: a byte of ASCII, where no character is incomplete.
* `sync_spec`: two bytes that end whatever has been begun.
* `number_spec`: the arguments of a sequence, from their decimal digits.
* `cursor_report_round_trip`: `CUP` and then `CPR`.
-/

namespace VTest
namespace Term

/-! ## UTF-8 -/

section

variable {s : Emu}

/-- The state of the decoder. -/
def Emu.decoder (s : Emu) (left bits : Nat) : Emu :=
  s.upd fun t => { t with utf8Left := left, utf8Partial := bits }

theorem inputByte_lead2 (h : s.tek.bit8 = false) {k : Nat} (hk : k < 32) :
    inputByte s (UInt8.ofNat (k + 192)) = .ok (s.decoder 1 k) := by
  have hbyte : ∀ k : Fin 32, ¬UInt8.ofNat (k.val + 192) &&& 0x80 = 0 ∧
      UInt8.ofNat (k.val + 192) &&& 0xe0 = 0xc0 ∧
      (UInt8.ofNat (k.val + 192) &&& 0x1f).toNat = k.val := by decide
  obtain ⟨h1, h2, h3⟩ := hbyte ⟨k, hk⟩
  dsimp only at h1 h2 h3
  rw [inputByte, if_neg (by rw [h]; simpa using h1), if_pos h2, h3]
  rfl

theorem inputByte_lead3 (h : s.tek.bit8 = false) {k : Nat} (hk : k < 16) :
    inputByte s (UInt8.ofNat (k + 224)) = .ok (s.decoder 2 k) := by
  have hbyte : ∀ k : Fin 16, ¬UInt8.ofNat (k.val + 224) &&& 0x80 = 0 ∧
      ¬UInt8.ofNat (k.val + 224) &&& 0xe0 = 0xc0 ∧ UInt8.ofNat (k.val + 224) &&& 0xf0 = 0xe0 ∧
      (UInt8.ofNat (k.val + 224) &&& 0x0f).toNat = k.val := by decide
  obtain ⟨h1, h2, h3, h4⟩ := hbyte ⟨k, hk⟩
  dsimp only at h1 h2 h3 h4
  rw [inputByte, if_neg (by rw [h]; simpa using h1), if_neg h2, if_pos h3, h4]
  rfl

theorem inputByte_lead4 (h : s.tek.bit8 = false) {k : Nat} (hk : k < 8) :
    inputByte s (UInt8.ofNat (k + 240)) = .ok (s.decoder 3 k) := by
  have hbyte : ∀ k : Fin 8, ¬UInt8.ofNat (k.val + 240) &&& 0x80 = 0 ∧
      ¬UInt8.ofNat (k.val + 240) &&& 0xe0 = 0xc0 ∧ ¬UInt8.ofNat (k.val + 240) &&& 0xf0 = 0xe0 ∧
      UInt8.ofNat (k.val + 240) &&& 0xf8 = 0xf0 ∧
      (UInt8.ofNat (k.val + 240) &&& 0x07).toNat = k.val := by decide
  obtain ⟨h1, h2, h3, h4, h5⟩ := hbyte ⟨k, hk⟩
  dsimp only at h1 h2 h3 h4 h5
  rw [inputByte, if_neg (by rw [h]; simpa using h1), if_neg h2, if_neg h3, if_pos h4, h5]
  rfl

theorem inputByte_cont (h : s.tek.bit8 = false) (left bits : Nat) {k : Nat} (hk : k < 64) :
    inputByte (s.decoder (left + 1) bits) (UInt8.ofNat (k + 128)) =
      if left = 0 then inputChar (s.decoder 0 (bits * 64 + k)) (bits * 64 + k)
      else .ok (s.decoder left (bits * 64 + k)) := by
  have hbyte : ∀ k : Fin 64, ¬UInt8.ofNat (k.val + 128) &&& 0x80 = 0 ∧
      ¬UInt8.ofNat (k.val + 128) &&& 0xe0 = 0xc0 ∧ ¬UInt8.ofNat (k.val + 128) &&& 0xf0 = 0xe0 ∧
      ¬UInt8.ofNat (k.val + 128) &&& 0xf8 = 0xf0 ∧ UInt8.ofNat (k.val + 128) &&& 0xc0 = 0x80 ∧
      (UInt8.ofNat (k.val + 128) &&& 0x3f).toNat = k.val := by decide
  obtain ⟨h1, h2, h3, h4, h5, h6⟩ := hbyte ⟨k, hk⟩
  dsimp only at h1 h2 h3 h4 h5 h6
  have hb : (s.decoder (left + 1) bits).tek.bit8 = false := h
  have hl : ¬(s.decoder (left + 1) bits).tek.utf8Left = 0 := Nat.succ_ne_zero left
  have hbits : bits <<< 6 ||| k = bits * 64 + k := by
    rw [← Nat.shiftLeft_add_eq_or_of_lt (by simpa using hk), Nat.shiftLeft_eq]
  rw [inputByte, if_neg (by rw [hb]; simpa using h1), if_neg h2, if_neg h3, if_neg h4, if_pos h5,
    if_neg hl, h6]
  show (if left + 1 - 1 = 0 then inputChar (s.decoder (left + 1 - 1) (bits <<< 6 ||| k))
    (bits <<< 6 ||| k) else Except.ok (s.decoder (left + 1 - 1) (bits <<< 6 ||| k))) = _
  rw [Nat.add_sub_cancel, hbits]
  by_cases h0 : left = 0
  · rw [if_pos h0, if_pos h0, h0]
  · rw [if_neg h0, if_neg h0]

/-- The state in which a character is taken. -/
def Emu.decoded (s : Emu) (c : Char) : Emu :=
  s.decoder 0 (if c.toNat ≤ 127 then s.tek.utf8Partial else c.toNat)

/-- A character in UTF-8 is read as its code point, whatever state the decoder is in. -/
theorem utf8_char (h : s.tek.bit8 = false) (c : Char) :
    run inputByte s (String.utf8EncodeChar c) = inputChar (s.decoded c) c.toNat := by
  have hmax : c.toNat < 1114112 := by
    have hvalid : c.toNat < 0xd800 ∨ 0xdfff < c.toNat ∧ c.toNat < 0x110000 := c.valid
    omega
  rw [String.utf8EncodeChar, Emu.decoded, show c.val.toNat = c.toNat from rfl]
  generalize c.toNat = v at hmax ⊢
  by_cases h1 : v ≤ 127
  · have hbyte : ∀ k : Fin 128, UInt8.ofNat k.val &&& 0x80 = 0 ∧
        (UInt8.ofNat k.val).toNat = k.val := by decide
    obtain ⟨hb, hn⟩ := hbyte ⟨v, by omega⟩
    dsimp only at hb hn
    rw [if_pos h1, if_pos h1, run_singleton, inputByte, if_pos (Or.inl hb), hn]
    rfl
  rw [if_neg h1, if_neg h1]
  by_cases h2 : v ≤ 2047
  · rw [if_pos h2, run_cons, inputByte_lead2 h (Nat.mod_lt _ (by decide)), ok_bind, run_singleton,
      inputByte_cont h 0 _ (Nat.mod_lt _ (by decide)), if_pos rfl,
      show v / 64 % 32 * 64 + v % 64 = v by omega]
  rw [if_neg h2]
  by_cases h3 : v ≤ 65535
  · rw [if_pos h3, run_cons, inputByte_lead3 h (Nat.mod_lt _ (by decide)), ok_bind, run_cons,
      inputByte_cont h 1 _ (Nat.mod_lt _ (by decide)), if_neg (by decide), ok_bind, run_singleton,
      inputByte_cont h 0 _ (Nat.mod_lt _ (by decide)), if_pos rfl,
      show (v / 4096 % 16 * 64 + v / 64 % 64) * 64 + v % 64 = v by omega]
  · rw [if_neg h3, run_cons, inputByte_lead4 h (Nat.mod_lt _ (by decide)), ok_bind, run_cons,
      inputByte_cont h 2 _ (Nat.mod_lt _ (by decide)), if_neg (by decide), ok_bind, run_cons,
      inputByte_cont h 1 _ (Nat.mod_lt _ (by decide)), if_neg (by decide), ok_bind, run_singleton,
      inputByte_cont h 0 _ (Nat.mod_lt _ (by decide)), if_pos rfl,
      show ((v / 262144 % 8 * 64 + v / 4096 % 64) * 64 + v / 64 % 64) * 64 +
        v % 64 = v by omega]

end

/-- The bytes of a text. -/
def utf8 (text : List Char) : Bytes := text.flatMap String.utf8EncodeChar

theorem Ready.decoded {s : Emu} (h : Ready s) (c : Char) : Ready (s.decoded c) :=
  h.decoder 0 _

theorem utf8_run {s : Emu} (h : Ready s) (text : List Char) :
    s.input (utf8 text) = run (fun s c => inputChar (s.decoded c) c.toNat) s text := by
  induction text generalizing s with
  | nil => rfl
  | cons c text ih =>
    obtain ⟨s', hrun, h'⟩ := (inputChar_ready (h.decoded c) c.toNat).exists_ok
    rw [utf8, List.flatMap_cons, Emu.input, run_append, utf8_char h.placed.utf8, run_cons, hrun,
      ok_bind, ok_bind]
    exact ih h'

/-- **A text in UTF-8 is read as what it is**: whatever a process has written before, be it the
beginning of a character or bytes that are none, each character is taken as its code point. -/
theorem utf8_text_decoded {evs : List TermEvent} (hevs : ∀ ev ∈ evs, ev.Fits) (text : List Char) :
    ∃ s, processRun evs = .ok s ∧
      s.input (utf8 text) = run (fun s c => inputChar (s.decoded c) c.toNat) s text := by
  obtain ⟨s, hrun, h⟩ := (processRun_ready hevs).exists_ok
  exact ⟨s, hrun, utf8_run h text⟩

theorem utf8_text_decoded_after_lead_byte :
    ∃ s, processRun [.output [0xe3, 0x81, 0xff]] = .ok s ∧
      s.input (utf8 ['z', 'é']) =
        run (fun s c => inputChar (s.decoded c) c.toNat) s ['z', 'é'] :=
  utf8_text_decoded (by decide) _

/-! ## ASCII -/

/-- No character is incomplete, and no string is thrown away. -/
structure Idle (s : Emu) : Prop extends Ready s where
  left : s.tek.utf8Left = 0
  instring : s.tek.instring = false

section

variable {s s' : Emu}

/-- One character, where no string is thrown away. -/
theorem inputChar_eq (hin : s.tek.instring = false) (c : Nat) :
    inputChar s c = dispatch s c >>= postInput := by
  have hs : (s.upd fun t => { t with instring := false }) = s := by
    obtain ⟨t, pp, r⟩ := s
    have hl : t.instring = false := hin
    cases t
    cases hl
    rfl
  rw [inputChar, if_neg (by rw [hin]; simp), hs]

/-- The assertions behind a character hold. -/
theorem Ready.char (h : Ready s) (hin : s.tek.instring = false) (c : Nat) :
    inputChar s c = dispatch s c := by
  obtain ⟨s', hrun, h'⟩ := (dispatch_ready h c).exists_ok
  rw [inputChar_eq hin, hrun, ok_bind, postInput_eq h'.placed]

/-- A byte of ASCII is one character. -/
theorem Idle.byte (h : Idle s) {c : UInt8} (hc : c.toNat < 128) :
    inputByte s c = dispatch s c.toNat := by
  have hbyte : ∀ k : Fin 128, UInt8.ofNat k.val &&& 0x80 = 0 := by decide
  have hb := hbyte ⟨c.toNat, hc⟩
  dsimp only at hb
  rw [UInt8.ofNat_toNat] at hb
  have hs : (s.upd fun t => { t with utf8Left := 0 }) = s := by
    obtain ⟨t, pp, r⟩ := s
    have hl : t.utf8Left = 0 := h.left
    cases t
    cases hl
    rfl
  rw [inputByte, if_pos (Or.inl hb), hs, h.toReady.char h.instring]

theorem Idle.step (h : Idle s) {c : UInt8} (hc : c.toNat < 128)
    (hd : dispatch s c.toNat = .ok s') (hl : s'.tek.utf8Left = 0)
    (hi : s'.tek.instring = false) : inputByte s c = .ok s' ∧ Idle s' := by
  obtain ⟨s1, hrun, h1⟩ := (dispatch_ready h.toReady c.toNat).exists_ok
  cases hd.symm.trans hrun
  exact ⟨(h.byte hc).trans hd, h1, hl, hi⟩

/-! ## Beginnings of sequences -/

/-- What `BEL` and `CAN` leave alone, whatever was begun. -/
structure Synced (s s' : Emu) : Prop where
  idle : Idle s'
  nextstate : s'.tek.nextstate = .init
  pp : s'.pp = s.pp
  responses : s'.responses = s.responses
  winsize : s'.tek.winsize = s.tek.winsize
  originreg : s'.tek.originreg = s.tek.originreg

/-- `CAN` is none of the characters of a sequence. -/
theorem select_can (st : State) : select st.prefixes 24 = none ∧ select st.cmds 24 = none := by
  cases st <;> decide

theorem scsProcess_can (t : Teken) : scsProcess t 24 = 24 := by
  unfold scsProcess
  split <;> simp

theorem printed_can {t : Teken} (h : t.bit8 = false) : printed t 24 = none := by
  rw [printed, h, if_neg (by decide), scsProcess_can]
  decide

/-- A character that is no part of an argument. -/
theorem stateNumbers_other {t : Teken} (h : t.curnum < numSize) {c : Nat}
    (hd : ¬(48 ≤ c ∧ c ≤ 57)) (hs : c ≠ 59) : stateNumbers t c = .ok (false, lastArgument t) := by
  rw [stateNumbers, decide_eq_true h, if_neg hd, if_neg hs]
  rfl

theorem stateSelect_can {st : State} (h : s.tek.bit8 = false) :
    stateSelect st s 24 =
      .ok (if st = .init then s else s.upd fun t => stateSwitch .init { t with last := 0 }) := by
  rw [stateSelect, (select_can st).1, (select_can st).2]
  dsimp only
  by_cases hst : st = .init
  · rw [if_pos hst, if_pos hst, regularCharacter, printed_can h]
  · rw [if_neg hst, if_neg hst]
    rfl

theorem nextstate_can (h : Idle s) : ∃ s', nextstate s 24 = .ok s' ∧ Synced s s' := by
  obtain ⟨s', hrun, hready⟩ := (nextstate_ready h.toReady 24).exists_ok
  refine ⟨s', hrun, ?_⟩
  rw [nextstate] at hrun
  by_cases hnum : s.tek.nextstate.numbers = true
  · have hst : s.tek.nextstate ≠ .init := by
      intro hc
      rw [hc] at hnum
      cases hnum
    obtain ⟨⟨nums, curnum, first, next, ha⟩, _⟩ := lastArgument_spec h.placed.nums
    have hb : ({ s with tek := lastArgument s.tek } : Emu).tek.bit8 = false := by
      show (lastArgument s.tek).bit8 = false
      rw [ha]
      exact h.placed.utf8
    rw [if_pos hnum, stateNumbers_other h.curnum (by decide) (by decide), ok_bind] at hrun
    dsimp only at hrun
    rw [if_neg (by decide), stateSelect_can hb, if_neg hst, ha] at hrun
    cases hrun
    exact ⟨⟨hready, h.left, h.instring⟩, rfl, rfl, rfl, rfl, rfl⟩
  · rw [if_neg hnum, stateSelect_can h.placed.utf8] at hrun
    cases hrun
    split at hready
    · rename_i hst
      rw [if_pos hst]
      exact ⟨h, hst, rfl, rfl, rfl, rfl⟩
    · rename_i hst
      rw [if_neg hst]
      exact ⟨⟨hready, h.left, h.instring⟩, rfl, rfl, rfl, rfl, rfl⟩

/-- `BEL` ends a string and a character that is incomplete, and `CAN` a sequence. -/
theorem sync_spec (h : Ready s) : ∃ s', run inputByte s [7, 24] = .ok s' ∧ Synced s s' := by
  have hbel : inputByte s 7 =
      .ok (s.upd fun t => { t with utf8Left := 0, instring := false }) := by
    rw [inputByte, if_pos (Or.inl (by decide)), inputChar]
    split
    · rfl
    · have hp : Placed (s.upd fun t => { t with utf8Left := 0, instring := false }).tek :=
        { h.placed with }
      exact bind_eq_ok.mpr ⟨_, rfl, postInput_eq hp⟩
  have hidle : Idle (s.upd fun t => { t with utf8Left := 0, instring := false }) :=
    ⟨⟨h.toGood.upd rfl { h.placed with }, h.curnum⟩, rfl, rfl⟩
  obtain ⟨s', hrun, hs⟩ := nextstate_can hidle
  refine ⟨s', ?_, hs.idle, hs.nextstate, hs.pp, hs.responses, hs.winsize, hs.originreg⟩
  rw [run_cons, hbel, ok_bind, run_singleton, hidle.byte (by decide)]
  exact hrun

/-! ## Sequences -/

theorem dispatch_of_ge {c : Nat} (h : 16 ≤ c) : dispatch s c = nextstate s c := by
  unfold dispatch
  split <;> first | omega | rfl

/-- A character that leads to a longer beginning. -/
theorem Idle.goto (h : Idle s) (st : State) {st' : State} {c : UInt8}
    (hst : s.tek.nextstate = st) (hsel : select st.prefixes c.toNat = some st')
    (hnum : st.numbers = false) (hc : 16 ≤ c.toNat) (hc' : c.toNat < 128) :
    inputByte s c = .ok (s.upd (stateSwitch st')) ∧ Idle (s.upd (stateSwitch st')) := by
  refine h.step hc' ?_ h.left h.instring
  rw [dispatch_of_ge hc, nextstate, hst, hnum, if_neg (by decide), stateSelect, hsel]

theorem Idle.digit (h : Idle s) (hnum : s.tek.nextstate.numbers = true) {d : Nat} (hd : d < 10) :
    inputByte s (digit d) = .ok { s with tek := digitArgument s.tek d } ∧
      Idle { s with tek := digitArgument s.tek d } := by
  have hbyte : ∀ d : Fin 10, (VTest.digit d.val).toNat = 48 + d.val := by decide
  have hval : (VTest.digit d).toNat = 48 + d := hbyte ⟨d, hd⟩
  obtain ⟨⟨_, _, _, _, ha⟩, _⟩ := digitArgument_spec h.placed.nums hd
  refine h.step (by omega) ?_ ?_ ?_
  · rw [hval, dispatch_of_ge (by omega), nextstate, if_pos hnum, stateNumbers,
      decide_eq_true h.curnum, if_pos (by omega), Nat.add_sub_cancel_left]
    rfl
  · show (digitArgument s.tek d).utf8Left = 0
    rw [ha]
    exact h.left
  · show (digitArgument s.tek d).instring = false
    rw [ha]
    exact h.instring

theorem Idle.semicolon (h : Idle s) (hnum : s.tek.nextstate.numbers = true) :
    inputByte s 59 = .ok { s with tek := nextArgument s.tek } ∧
      Idle { s with tek := nextArgument s.tek } := by
  obtain ⟨⟨_, _, _, _, ha⟩, _⟩ := nextArgument_spec h.placed.nums h.curnum
  refine h.step (by decide) ?_ ?_ ?_
  · rw [dispatch_of_ge (by decide), nextstate, if_pos hnum, stateNumbers,
      decide_eq_true h.curnum]
    rfl
  · show (nextArgument s.tek).utf8Left = 0
    rw [ha]
    exact h.left
  · show (nextArgument s.tek).instring = false
    rw [ha]
    exact h.instring

/-- The character that ends a sequence with arguments. -/
theorem Idle.final (h : Idle s) {st : State} (hst : s.tek.nextstate = st)
    (hnum : st.numbers = true) {c : UInt8} (hc : 64 ≤ c.toNat) (hc' : c.toNat < 128)
    (hpre : select st.prefixes c.toNat = none) {cmd : Cmd}
    (hsel : select st.cmds c.toNat = some cmd)
    (hexec : cmd.exec { s with tek := lastArgument s.tek } = .ok s')
    (hl : s'.tek.utf8Left = 0) (hi : s'.tek.instring = false) :
    inputByte s c = .ok (s'.upd fun t => stateSwitch .init { t with last := 0 }) ∧
      Idle (s'.upd fun t => stateSwitch .init { t with last := 0 }) := by
  have hinit : st ≠ .init := by
    rintro rfl
    cases hnum
  refine h.step hc' ?_ hl hi
  rw [dispatch_of_ge (by omega), nextstate, hst, if_pos hnum,
    stateNumbers_other h.curnum (by omega) (by omega), ok_bind]
  show (if false = true then _ else stateSelect st { s with tek := lastArgument s.tek } _) = _
  rw [if_neg (by decide), stateSelect, hpre]
  dsimp only
  rw [if_neg hinit, hsel, Option.getD_some, hexec]
  rfl

/-- `ESC [`. -/
theorem Idle.csi (h : Idle s) (hst : s.tek.nextstate = .init) :
    run inputByte s [27, 91] = .ok (s.upd (stateSwitch .csi)) ∧
      Idle (s.upd (stateSwitch .csi)) := by
  have hesc : select State.init.prefixes (27 : UInt8).toNat = some .esc := by decide
  have hcsi : select State.esc.prefixes (91 : UInt8).toNat = some .csi := by decide
  obtain ⟨h1, hi1⟩ := h.goto .init hst hesc rfl (by decide) (by decide)
  obtain ⟨h2, hi2⟩ := hi1.goto .esc rfl hcsi rfl (by decide) (by decide)
  refine ⟨?_, hi2⟩
  rw [run_cons, h1, ok_bind, run_singleton, h2]
  rfl

/-- A number as it is taken: digits are ignored once it is larger than any terminal. -/
def Taken (v n : Nat) : Prop := v = n ∨ 42949672 ≤ v ∧ v ≤ n

theorem Taken.digit {v n : Nat} (h : Taken v (n / 10)) :
    Taken (if v < 42949672 then v * 10 + n % 10 else v) n := by
  rcases h with rfl | h
  · split
    · exact Or.inl (by omega)
    · exact Or.inr ⟨by omega, by omega⟩
  · rw [if_neg (by omega)]
    exact Or.inr ⟨h.1, by omega⟩

/-- The digits of an argument. -/
theorem number_spec (h : Idle s) (hnum : s.tek.nextstate.numbers = true)
    (hfirst : s.tek.firstdigit = true) (n : Nat) :
    ∃ v, Taken v n ∧
      run inputByte s (decimal n) =
        .ok { s with tek := { setNum s.tek v with firstdigit := false } } ∧
      Idle { s with tek := { setNum s.tek v with firstdigit := false } } := by
  induction n using Nat.strongRecOn with
  | ind n ih =>
    by_cases hn : n < 10
    · obtain ⟨hrun, hi⟩ := h.digit hnum hn
      rw [digitArgument, if_pos hfirst] at hrun hi
      exact ⟨n, Or.inl rfl, by rw [decimal_of_lt hn, run_singleton]; exact hrun, hi⟩
    · obtain ⟨v, hv, hrun, hi⟩ := ih (n / 10) (by omega)
      have hget : (setNum s.tek v).nums s.tek.curnum = v := Function.update_self ..
      refine ⟨if v < 42949672 then v * 10 + n % 10 else v, hv.digit, ?_⟩
      obtain ⟨hrun', hi'⟩ := hi.digit hnum (Nat.mod_lt n (by decide : 0 < 10))
      have hstep : digitArgument { setNum s.tek v with firstdigit := false } (n % 10) =
          { setNum s.tek (if v < 42949672 then v * 10 + n % 10 else v) with
            firstdigit := false } := by
        rw [digitArgument, if_neg Bool.false_ne_true]
        show (if (setNum s.tek v).nums s.tek.curnum < 42949672 then
          setNum { setNum s.tek v with firstdigit := false }
            ((setNum s.tek v).nums s.tek.curnum * 10 + n % 10) else _) = _
        rw [hget]
        split
        · simp only [setNum, Function.update_idem]
        · rfl
      rw [hstep] at hrun' hi'
      rw [decimal_of_ge (Nat.le_of_not_lt hn), run_append, hrun, ok_bind, run_singleton]
      exact ⟨hrun', hi'⟩

/-! ## `CUP` and `CPR` -/

/-- `ESC [ row ; col H`. -/
def cup (row col : Nat) : Bytes := [27, 91] ++ decimal row ++ [59] ++ decimal col ++ [72]

/-- `ESC [ 6 n`. -/
def cpr : Bytes := [27, 91, 54, 110]

/-- The answer to it: `ESC [ row ; col R`. -/
def cprAnswer (row col : Nat) : Bytes := [27, 91] ++ decimal row ++ [59] ++ decimal col ++ [82]

theorem Taken.argN {v n most : Nat} (h : Taken v n) (hm : most ≤ 65535) :
    min (if v = 0 then 1 else v) most = min (max n 1) most := by
  rcases h with rfl | h
  · split <;> omega
  · rw [if_neg (by omega)]
    omega

theorem absRow_spec {t : Teken} (h : t.originreg.tsBegin < t.originreg.tsEnd) {row : Nat}
    (hrow : 0 < row) : absRow t row - t.originreg.tsBegin + 1 =
      min row (t.originreg.tsEnd - t.originreg.tsBegin) := by
  unfold absRow
  dsimp only
  split <;> omega

theorem absCol_spec {t : Teken} (h : 0 < t.winsize.tpCol) {col : Nat} (hcol : 0 < col) :
    absCol t col + 1 = min col t.winsize.tpCol := by
  unfold absCol
  split <;> omega

/-- No window is larger than an `unsigned short` can say. -/
theorem Good.short (h : Good s) : s.tek.winsize.tpRow ≤ 65535 ∧ s.tek.winsize.tpCol ≤ 65535 := by
  obtain ⟨sc, hw⟩ := h.win
  have hrow := hw.row
  have hcol := hw.col
  omega

/-- The arguments of a sequence with two of them, as its last character finds them. -/
def withArgs (t : Teken) (st : State) (v w : Nat) : Teken :=
  { t with
    nextstate := st
    nums := Function.update (Function.update t.nums 0 v) 1 w
    curnum := 2
    firstdigit := false }

theorem argN_withArgs (t : Teken) (st : State) (v w : Nat) :
    argN (withArgs t st v w) 1 = (if v = 0 then 1 else v) ∧
      argN (withArgs t st v w) 2 = (if w = 0 then 1 else w) := by
  have hv : (withArgs t st v w).nums 0 = v := by
    show Function.update (Function.update t.nums 0 v) 1 w 0 = v
    rw [Function.update_of_ne (by decide), Function.update_self]
  have hw : (withArgs t st v w).nums 1 = w := by
    show Function.update (Function.update t.nums 0 v) 1 w 1 = w
    rw [Function.update_self]
  have hnum : (withArgs t st v w).curnum = 2 := rfl
  rw [argN, argN, Nat.sub_self, hnum, hv, hw]
  simp

theorem cursorPosition_spec (h : Good s) {row col : Nat} (hrow : 0 < row) (hcol : 0 < col) :
    ∃ cur, cursorPosition s row col =
        .ok (s.upd fun t => { t with cursor := cur, wrapped := false }) ∧
      cur.tpRow - s.tek.originreg.tsBegin + 1 =
        min row (s.tek.originreg.tsEnd - s.tek.originreg.tsBegin) ∧
      cur.tpCol + 1 = min col s.tek.winsize.tpCol := by
  have hp := h.placed
  refine ⟨⟨absRow s.tek row, absCol s.tek col⟩, ?_, absRow_spec hp.origin_lt hrow,
    absCol_spec hp.zero_col hcol⟩
  exact funcsCursor_eq (s := s.upd _) ((hp.absRow row).2.trans_le hp.origin_le) (hp.absCol col)

theorem cup_spec (h : Idle s) (hst : s.tek.nextstate = .init) (row col : Nat) :
    ∃ s', run inputByte s (cup row col) = .ok s' ∧ Idle s' ∧ s'.tek.nextstate = .init ∧
      s'.responses = s.responses ∧ s'.tek.originreg = s.tek.originreg ∧
      s'.tek.cursor.tpRow - s.tek.originreg.tsBegin + 1 =
        min (max row 1) (s.tek.originreg.tsEnd - s.tek.originreg.tsBegin) ∧
      s'.tek.cursor.tpCol + 1 = min (max col 1) s.tek.winsize.tpCol := by
  obtain ⟨hrun1, h1⟩ := h.csi hst
  obtain ⟨v, hv, hrun2, h2⟩ := number_spec h1 rfl rfl row
  obtain ⟨hrun3, h3⟩ := h2.semicolon rfl
  obtain ⟨w, hw, hrun4, h4⟩ := number_spec h3 rfl rfl col
  have hg : Good { s with tek := withArgs s.tek .csi v w } := by
    obtain ⟨ha, hn⟩ := lastArgument_spec h4.placed.nums
    exact ⟨h.win, ha.placed h4.placed hn⟩
  obtain ⟨cur, hcur, hr, hc⟩ := cursorPosition_spec hg
    (argN_pos (withArgs s.tek .csi v w) 1) (argN_pos (withArgs s.tek .csi v w) 2)
  have hpre : select State.csi.prefixes (72 : UInt8).toNat = none := by decide
  have hsel : select State.csi.cmds (72 : UInt8).toNat = some .cup := by decide
  obtain ⟨hrun5, h5⟩ := h4.final rfl rfl (by decide) (by decide) hpre hsel hcur h.left h.instring
  refine ⟨_, ?_, h5, rfl, rfl, rfl, ?_, ?_⟩
  · rw [cup, run_append, run_append, run_append, run_append, hrun1, ok_bind, hrun2, ok_bind,
      run_singleton, hrun3, ok_bind, hrun4, ok_bind, run_singleton]
    exact hrun5
  · have hshort := h.short
    have hle := h.placed.origin_le
    rw [(argN_withArgs s.tek .csi v w).1] at hr
    exact hr.trans (hv.argN (by show s.tek.originreg.tsEnd - s.tek.originreg.tsBegin ≤ _; omega))
  · rw [(argN_withArgs s.tek .csi v w).2] at hc
    exact hc.trans (hw.argN h.short.2)

theorem cursorPositionReport_spec (h : Good s) :
    cursorPositionReport s 6 = funcsRespond s
      (cprAnswer (s.tek.cursor.tpRow - s.tek.originreg.tsBegin + 1) (s.tek.cursor.tpCol + 1)) := by
  have hrow := h.placed.row_win
  have hcol := h.placed.col_lt
  have hshort := h.short
  have hlen1 := @length_decimal_le (s.tek.cursor.tpRow - s.tek.originreg.tsBegin + 1) 4
    (by simp only [Nat.reduceAdd, Nat.reducePow]; omega)
  have hlen2 := @length_decimal_le (s.tek.cursor.tpCol + 1) 4
    (by simp only [Nat.reduceAdd, Nat.reducePow]; omega)
  have hfits : ¬(decimal (s.tek.cursor.tpRow - s.tek.originreg.tsBegin + 1) ++ ascii ";" ++
      decimal (s.tek.cursor.tpCol + 1) ++ ascii "R").length ≥ 16 := by
    rw [List.length_append, List.length_append, List.length_append,
      show (ascii ";").length = 1 from rfl, show (ascii "R").length = 1 from rfl]
    omega
  have hcpr : doCpr s.tek 6 = some (decimal (s.tek.cursor.tpRow - s.tek.originreg.tsBegin + 1) ++
      ascii ";" ++ decimal (s.tek.cursor.tpCol + 1) ++ ascii "R") := if_neg hfits
  rw [cursorPositionReport, respondCpr, hcpr]
  rfl

theorem cpr_spec (h : Idle s) (hst : s.tek.nextstate = .init) :
    ∃ s', run inputByte s cpr = .ok s' ∧ s'.responses = s.responses ++
      [cprAnswer (s.tek.cursor.tpRow - s.tek.originreg.tsBegin + 1) (s.tek.cursor.tpCol + 1)] := by
  obtain ⟨hrun1, h1⟩ := h.csi hst
  obtain ⟨hrun2, h2⟩ := h1.digit rfl (by decide : 6 < 10)
  have hg : Good { s with tek := lastArgument (digitArgument (stateSwitch .csi s.tek) 6) } := by
    obtain ⟨ha, hn⟩ := lastArgument_spec h2.placed.nums
    exact ⟨h.win, ha.placed h2.placed hn⟩
  have harg : argR (lastArgument (digitArgument (stateSwitch .csi s.tek) 6)) 1 = 6 := by
    show Function.update s.tek.nums 0 6 0 = 6
    rw [Function.update_self]
  have hpre : select State.csi.prefixes (110 : UInt8).toNat = none := by decide
  have hsel : select State.csi.cmds (110 : UInt8).toNat = some .cpr := by decide
  have hexec := congrArg (Except.ok (ε := Trap)) (cursorPositionReport_spec hg)
  rw [← harg] at hexec
  obtain ⟨hrun3, _⟩ := h2.final rfl rfl (by decide) (by decide) hpre hsel hexec h.left h.instring
  refine ⟨_, Eq.trans ?_ hrun3, rfl⟩
  rw [cpr, show ([27, 91, 54, 110] : Bytes) = [27, 91] ++ [digit 6] ++ [110] from rfl, run_append,
    run_append, hrun1, ok_bind, run_singleton, hrun2, ok_bind, run_singleton]

end

/-- **The cursor is where it was sent**: at any time, whatever a process has written before, `CUP`
and then `CPR` is answered with the row and the column that were asked for, or the last ones there
are. Rows are those of the scrolling region in origin mode. -/
theorem cursor_report_round_trip {evs : List TermEvent} (hevs : ∀ ev ∈ evs, ev.Fits)
    (row col : Nat) :
    ∃ s s', processRun evs = .ok s ∧ s.input ([7, 24] ++ cup row col ++ cpr) = .ok s' ∧
      s'.responses = s.responses ++
        [cprAnswer (min (max row 1) (s.tek.originreg.tsEnd - s.tek.originreg.tsBegin))
          (min (max col 1) s.tek.winsize.tpCol)] := by
  obtain ⟨s, hrun, h⟩ := (processRun_ready hevs).exists_ok
  obtain ⟨s1, hrun1, h1⟩ := sync_spec h
  obtain ⟨s2, hrun2, h2, hst2, hr2, ho2, hrow, hcol⟩ := cup_spec h1.idle h1.nextstate row col
  obtain ⟨s3, hrun3, hr3⟩ := cpr_spec h2 hst2
  refine ⟨s, s3, hrun, ?_, ?_⟩
  · rw [Emu.input, run_append, run_append, hrun1, ok_bind, hrun2, ok_bind]
    exact hrun3
  · rw [hr3, hr2, h1.responses, ho2, hrow, hcol, h1.originreg, h1.winsize]

theorem cursor_report_round_trip_in_region :
    ∃ s s', processRun [.output (27 :: ascii "[5;9r" ++ 27 :: ascii "[?6h")] = .ok s ∧
      s.input ([7, 24] ++ cup 7 200 ++ cpr) = .ok s' ∧
      s'.responses = s.responses ++
        [cprAnswer (min (max 7 1) (s.tek.originreg.tsEnd - s.tek.originreg.tsBegin))
          (min (max 200 1) s.tek.winsize.tpCol)] :=
  cursor_report_round_trip (by decide) 7 200

end Term
end VTest
