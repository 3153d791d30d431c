import VTest.Http1.Chunk

/-!
# VTest.Http1.ChunkSize

Which chunks `http_rxchunk` takes, for any size line and whatever follows it.

* `chunkRx` is what comes of a chunk whose size line is read as `chunkLen`.
* `httpRxchunk_rx`: this is what `http_rxchunk` does, however the bytes are handed out.
* `chunk_size_kept_iff`: when it either fails or takes the chunk that the line announces. A sign, a
  blank or `0x` in front of the number, a number of more than 31 bits, and a lone LF behind the data
  are in the way.
-/

namespace VTest
namespace Http1

/-! ## What comes of a chunk -/

/-- The receive buffer is too small, a failure is logged, or there is a chunk. -/
inductive ChunkRx where
  | overrun
  | failure
  | chunk (len : Int)
  deriving DecidableEq, Repr

/-- `line` is the size line, `next` what follows it on the connection. -/
def chunkRx (line next : Bytes) (room : Nat) : ChunkRx :=
  if room ≤ line.length then .overrun
  else
    match chunkLen line with
    | none => .failure
    | some len =>
      if room ≤ len.toNat then .overrun
      else if next.length < len.toNat then .failure
      else if room ≤ len.toNat + 2 then .overrun
      else
        match next.drop len.toNat with
        | e :: f :: _ => if iscrlf [e, f] = 0 then .failure else .chunk len
        | _ => .failure

/-- The data stands behind `a`, and two more bytes have been taken off the connection. -/
structure Appended (hp hp' : Http) (a data rest : Bytes) : Prop where
  mem : ∃ r', hp'.mem = a ++ data ++ r'
  size : hp'.mem.length = hp.mem.length
  rxp : hp'.rxp = hp.rxp + data.length
  stream : hp'.stream = rest

/-- The outcome of `http_rxchunk`. -/
def ChunkRx.Of (hp : Http) (a next : Bytes) (x : Res (Int × Http)) : ChunkRx → Prop
  | overrun => x = .error .assert
  | failure => ∃ hp' : Http, hp'.fatal = hp.fatal ∧ x = hp'.failed
  | chunk len => ∃ hp', x = .ok (len, hp') ∧
      Appended hp hp' a (next.take len.toNat) (next.drop (len.toNat + 2))

theorem rxchunkLine_noroom {rest : Bytes} : ∀ (line : Bytes) (fuel : Nat) (hp : Http) (a r : Bytes),
    (∀ b ∈ line, b ≠ 10) → line.length < fuel → Benign hp.turns → hp.mem = a ++ r →
    hp.rxp = a.length → hp.stream = line ++ 10 :: rest → r.length ≤ line.length + 1 →
    rxchunkLine fuel hp = .error .assert := by
  intro line
  induction line with
  | nil =>
    intro fuel hp a r _ hf hb hm hp0 hs hl
    obtain ⟨fuel, rfl⟩ : ∃ n, fuel = n + 1 := ⟨fuel - 1, by simp at hf; omega⟩
    rw [rxchunkLine, show httpRxchar hp 1 false = _ from
      httpRxchar_noroom false hb hm hp0 (by decide) (by simpa using hl)]
    rfl
  | cons c line ih =>
    intro fuel hp a r hno hf hb hm hp0 hs hl
    obtain ⟨fuel, rfl⟩ : ∃ n, fuel = n + 1 := ⟨fuel - 1, by simp at hf; omega⟩
    simp only [List.length_cons] at hf hl
    by_cases h1 : r.length ≤ 1
    · rw [rxchunkLine, show httpRxchar hp 1 false = _ from
        httpRxchar_noroom false hb hm hp0 (by decide) h1]
      rfl
    · obtain ⟨r1, turns1, hrun, hb1, hlen1, -⟩ :=
        @httpRxchar_spec hp a [c] r (line ++ 10 :: rest) false hb hm hp0 hs (by simp; omega)
      have hlast : (hp.taken a [c] r1 (line ++ 10 :: rest) turns1).mem.getD
          ((hp.taken a [c] r1 (line ++ 10 :: rest) turns1).rxp - 1) 0 = c := by
        simp [Http.taken]
      have hrest := ih fuel (hp.taken a [c] r1 (line ++ 10 :: rest) turns1) (a ++ [c]) r1
        (fun b hb => hno b (List.mem_cons_of_mem c hb)) (by omega) hb1 rfl (by simp [Http.taken])
        rfl (by simp at hlen1; omega)
      rw [rxchunkLine, show httpRxchar hp 1 false = _ from hrun, ok_bind]
      simp only [hlast, if_neg (hno c List.mem_cons_self), hrest]
      rfl

section Data

variable {hp : Http} {a r next : Bytes} {len : Int} (hb : Benign hp.turns) (hm : hp.mem = a ++ r)

/-- A failure of `http_rxchar` ends `http_rxchunk`. -/
theorem failed_bind (hp : Http) (k : Int × Http → Res (Int × Http)) :
    (hp.failed >>= fun x => if x.1 < 0 then return (-1, x.2) else k x) = hp.failed := by
  unfold Http.failed
  split <;> rfl

include hb hm

theorem rxchunkData_noroom (hn : 0 < len.toNat) (hl : r.length ≤ len.toNat) :
    rxchunkData hp a.length len = .error .assert := by
  have hrun := @httpRxchar_noroom { hp with rxp := a.length } a r len.toNat false hb hm rfl hn hl
  rw [rxchunkData, httpRxchar]
  rw [httpRxchar, Int.toNat_natCast] at hrun
  rw [hrun]
  rfl

theorem rxchunkData_short (hs : hp.stream.length < len.toNat) (hl : len.toNat < r.length) :
    ∃ hp' : Http, hp'.fatal = hp.fatal ∧ rxchunkData hp a.length len = hp'.failed := by
  obtain ⟨r', turns, hrun, -⟩ :=
    @httpRxchar_short { hp with rxp := a.length } a r len.toNat false hb hm rfl hs hl
  refine ⟨hp.taken a hp.stream r' [] turns, rfl, ?_⟩
  rw [rxchunkData, httpRxchar]
  rw [httpRxchar, Int.toNat_natCast] at hrun
  rw [hrun]
  exact failed_bind _ _

theorem rxchunkEnd_noroom (hp0 : hp.rxp = a.length) (hl : r.length ≤ 2) :
    rxchunkEnd hp len = .error .assert := by
  rw [rxchunkEnd, show httpRxchar hp 2 false = _ from
    httpRxchar_noroom false hb hm hp0 (by decide) hl]
  rfl

theorem rxchunkEnd_short (hp0 : hp.rxp = a.length) (hs : hp.stream.length < 2)
    (hl : 2 < r.length) :
    ∃ hp' : Http, hp'.fatal = hp.fatal ∧ rxchunkEnd hp len = hp'.failed := by
  obtain ⟨r', turns, hrun, -⟩ := httpRxchar_short false hb hm hp0 hs hl
  refine ⟨hp.taken a hp.stream r' [] turns, rfl, ?_⟩
  rw [rxchunkEnd, show httpRxchar hp 2 false = _ from hrun]
  exact failed_bind _ _

end Data

/-- What `http_rxchunk` does, however the bytes are handed out. -/
theorem httpRxchunk_rx {hp : Http} {a r line next : Bytes} (h : ChunkNext hp a r line next) :
    (chunkRx line next r.length).Of hp a next (httpRxchunk hp) := by
  unfold chunkRx
  split
  · -- the size line does not fit
    rename_i hroom
    obtain ⟨w, rfl, hw⟩ := h.line
    have hs : hp.stream = w ++ 10 :: next := by rw [h.stream, List.append_assoc]; rfl
    show httpRxchunk hp = .error .assert
    rw [httpRxchunk, rxchunkLine_noroom w (hp.stream.length + 1) hp a r hw (by rw [hs]; simp)
      h.turns h.mem h.rxp hs (by simpa using hroom)]
    rfl
  rename_i hroom
  obtain ⟨r1, turns1, cl, hb1, hlen1, hrun⟩ := httpRxchunk_len h (by omega)
  let hp1 : Http := { hp.taken a line r1 next turns1 with chunklen := cl }
  have hm1 : hp1.mem = a ++ (line ++ r1) := List.append_assoc _ _ _
  have hs1 : hp1.stream = next := rfl
  have hfatal : hp1.fatal = hp.fatal := rfl
  rw [show httpRxchunk hp = (chunkLen line).elim hp1.failed (rxchunkData hp1 a.length) from hrun]
  cases hlen : chunkLen line with
  | none => exact ⟨hp1, hfatal, rfl⟩
  | some len =>
    simp only [Option.elim_some]
    split
    · exact rxchunkData_noroom hb1 hm1 (by omega) (by omega)
    split
    · obtain ⟨hp', hf, hr⟩ :=
        @rxchunkData_short hp1 a (line ++ r1) len hb1 hm1 (by rw [hs1]; omega) (by omega)
      exact ⟨hp', hf.trans hfatal, hr⟩
    rename_i hfit hall
    have hn : len.toNat = (next.take len.toNat).length := by rw [List.length_take]; omega
    have hs1' : hp1.stream = next.take len.toNat ++ next.drop len.toNat := by
      rw [hs1, List.take_append_drop]
    obtain ⟨r2, turns2, hdata, hb2, hlen2⟩ := rxchunkData_data hn hb1 hm1 hs1' (by omega)
    have hrxp2 : (hp1.taken a (next.take len.toNat) r2 (next.drop len.toNat) turns2).rxp =
        (a ++ next.take len.toNat).length := by
      simp [Http.taken]
    split
    · rw [hdata]
      exact rxchunkEnd_noroom hb2 rfl hrxp2 (by omega)
    split
    · rename_i e f rest hdrop
      rw [hdrop] at hdata hrxp2
      obtain ⟨r3, turns3, hend, -, hlen3⟩ :=
        @rxchunkEnd_pair _ _ r2 rest e f len hb2 rfl hrxp2 rfl (by omega)
      rw [hdata, hend]
      split
      · exact ⟨(hp1.taken a (next.take len.toNat) r2 (e :: f :: rest) turns2).taken
          (a ++ next.take len.toNat) [e, f] r3 rest turns3, hfatal, rfl⟩
      · refine ⟨_, rfl, ⟨0 :: f :: r3, ?_⟩, ?_, ?_, ?_⟩
        · simp [Http.taken]
        · simp only [Http.taken, List.length_append, List.length_cons, List.length_nil, h.mem]
          omega
        · rw [taken_taken]
          simp [Http.taken, h.rxp]
        · rw [← List.drop_drop, hdrop]
          rfl
    · rename_i hshort
      have hlen3 : (next.drop len.toNat).length < 2 := by
        rcases hd : next.drop len.toNat with _ | ⟨e, _ | ⟨f, rest⟩⟩
        · simp
        · simp
        · exact absurd hd (hshort e f rest)
      rw [hdata]
      obtain ⟨hp', hf, hr⟩ := @rxchunkEnd_short _ _ r2 len hb2 rfl hrxp2 hlen3 (by omega)
      exact ⟨hp', hf.trans hfatal, hr⟩

/-! ## The size that is announced -/

/-- A failure is logged: where failures are fatal the test ends there, and otherwise -1 is
returned. -/
def FailureLogged (hp : Http) : Prop :=
  httpRxchunk { hp with fatal := true } = .error .fatal ∧
    (hp.fatal = false → ∃ hp', httpRxchunk hp = .ok (-1, hp'))

/-- As many bytes as the line announces have been appended, and a line end was behind them. -/
def SizeKept (hp : Http) (a line next : Bytes) : Prop :=
  ∃ (v : Nat) (data rest : Bytes) (hp' : Http), httpRxchunk hp = .ok ((v : Int), hp') ∧
    Announces line v ∧ data.length = v ∧ next = data ++ (nl ++ rest) ∧ Appended hp hp' a data rest

/-- No part of the chunk overruns the buffer, and if it is taken, then its line is a plain number
that fits an `int` and its data ends with CR LF. -/
structure PlainChunk (line next : Bytes) (room : Nat) : Prop where
  line_fits : line.length < room
  data_fits : ∀ len, chunkLen line = some len → len.toNat < room
  end_fits : ∀ len, chunkLen line = some len → len.toNat ≤ next.length → len.toNat + 2 < room
  plain : ∀ len e f rest, chunkLen line = some len → next.drop len.toNat = e :: f :: rest →
    iscrlf [e, f] ≠ 0 → e = 13 ∧ ∃ v, v < 2 ^ 31 ∧ Announces line v

theorem failureLogged_iff {hp : Http} {a r line next : Bytes} (h : ChunkNext hp a r line next) :
    FailureLogged hp ↔ chunkRx line next r.length = .failure := by
  have hfatal := @httpRxchunk_rx { hp with fatal := true } a r line next
    ⟨h.turns, h.mem, h.rxp, h.stream, h.line⟩
  have hrx := httpRxchunk_rx h
  constructor
  · rintro ⟨hf, -⟩
    rw [hf] at hfatal
    cases hc : chunkRx line next r.length with
    | overrun =>
      rw [hc] at hfatal
      cases hfatal
    | failure => rfl
    | chunk len =>
      rw [hc] at hfatal
      obtain ⟨hp', hx, -⟩ := hfatal
      cases hx
  · intro hc
    rw [hc] at hfatal hrx
    obtain ⟨hp1, hf1, hx1⟩ := hfatal
    obtain ⟨hp2, hf2, hx2⟩ := hrx
    refine ⟨by rw [hx1, Http.failed, hf1]; rfl, fun hf => ⟨hp2, ?_⟩⟩
    rw [hx2, Http.failed, hf2, hf]
    rfl

theorem iscrlf_eq_two {e f : UInt8} (h : iscrlf [e, f] ≠ 0) (he : e = 13) : f = 10 := by
  subst he
  by_contra hf
  exact h (by simp [iscrlf, hf])

theorem sizeKept_iff {hp : Http} {a r line next : Bytes} (h : ChunkNext hp a r line next) :
    SizeKept hp a line next ↔ ∃ (v : Nat) (rest : Bytes),
      chunkRx line next r.length = .chunk v ∧ Announces line v ∧ next.drop v = nl ++ rest := by
  have hrx := httpRxchunk_rx h
  constructor
  · rintro ⟨v, data, rest, hp', hrun, hann, rfl, rfl, -⟩
    refine ⟨data.length, rest, ?_, hann, List.drop_left⟩
    rw [hrun] at hrx
    cases hc : chunkRx line (data ++ (nl ++ rest)) r.length with
    | overrun =>
      rw [hc] at hrx
      cases hrx
    | failure =>
      -- the value that is returned is not -1
      rw [hc] at hrx
      obtain ⟨hp1, -, hx⟩ := hrx
      rw [Http.failed] at hx
      split at hx
      · cases hx
      · simp only [Except.ok.injEq, Prod.mk.injEq] at hx
        omega
    | chunk len =>
      rw [hc] at hrx
      obtain ⟨hp1, hx, -⟩ := hrx
      cases hx
      rfl
  · rintro ⟨v, rest, hc, hann, hdrop⟩
    rw [hc] at hrx
    obtain ⟨hp', hrun, happ⟩ := hrx
    have hlen : v ≤ next.length := by
      by_contra hlt
      rw [List.drop_eq_nil_of_le (by omega)] at hdrop
      cases hdrop
    rw [Int.toNat_natCast, ← List.drop_drop, hdrop] at happ
    refine ⟨v, next.take v, rest, hp', hrun, hann, by rw [List.length_take]; omega, ?_, happ⟩
    rw [← hdrop, List.take_append_drop]

/-- When a chunk is taken. -/
theorem chunkRx_eq_chunk {line next : Bytes} {room : Nat} {len : Int}
    (h : chunkRx line next room = .chunk len) :
    chunkLen line = some len ∧ ∃ e f rest, next.drop len.toNat = e :: f :: rest ∧
      iscrlf [e, f] ≠ 0 := by
  unfold chunkRx at h
  split at h
  · cases h
  split at h
  · cases h
  rename_i len' hlen
  split at h
  · cases h
  split at h
  · cases h
  split at h
  · cases h
  split at h
  · rename_i e f rest hdrop
    split at h
    · cases h
    · rename_i hend
      cases h
      exact ⟨hlen, e, f, rest, hdrop, hend⟩
  · cases h

/-- When a part of a chunk overruns the buffer. -/
theorem chunkRx_eq_overrun {line next : Bytes} {room : Nat} :
    chunkRx line next room = .overrun ↔ room ≤ line.length ∨ ∃ len, chunkLen line = some len ∧
      (room ≤ len.toNat ∨ len.toNat ≤ next.length ∧ room ≤ len.toNat + 2) := by
  unfold chunkRx
  split
  · simp [*]
  cases hlen : chunkLen line with
  | none => simp [*]
  | some len =>
    simp only [Option.some.injEq, exists_eq_left']
    split
    · simp [*]
    split
    · simp only [reduceCtorEq, false_iff]
      omega
    split
    · simp only [true_iff]
      omega
    · have hno : ¬(room ≤ line.length ∨ room ≤ len.toNat ∨
          len.toNat ≤ next.length ∧ room ≤ len.toNat + 2) := by omega
      simp only [hno, iff_false]
      split
      · split <;> simp
      · simp

/-- What is not too large and looks like a line end ends the chunk. -/
theorem chunkRx_of_end {line next rest : Bytes} {room : Nat} {len : Int} {e f : UInt8}
    (hrun : chunkRx line next room ≠ .overrun) (hlen : chunkLen line = some len)
    (hdrop : next.drop len.toNat = e :: f :: rest) (hend : iscrlf [e, f] ≠ 0) :
    chunkRx line next room = .chunk len := by
  have hall : len.toNat ≤ next.length := by
    by_contra hlt
    rw [List.drop_eq_nil_of_le (by omega)] at hdrop
    cases hdrop
  rw [Ne, chunkRx_eq_overrun, not_or, not_exists] at hrun
  obtain ⟨hline, hfits⟩ := hrun
  have hfits := hfits len
  simp only [hlen, true_and, not_or] at hfits
  rw [chunkRx, if_neg hline]
  simp only [hlen, hdrop]
  rw [if_neg (by omega), if_neg (by omega), if_neg (by omega), if_neg hend]

/-- `http_rxchunk` logs a failure, or takes the chunk that its size line announces, just if no part
of the chunk overruns the buffer and what it takes is a plain chunk. -/
theorem chunk_size_kept_iff {hp : Http} {a r line next : Bytes} (h : ChunkNext hp a r line next) :
    FailureLogged hp ∨ SizeKept hp a line next ↔ PlainChunk line next r.length := by
  rw [failureLogged_iff h, sizeKept_iff h]
  constructor
  · intro hok
    have hrun : chunkRx line next r.length ≠ .overrun := by
      rcases hok with hc | ⟨v, rest, hc, -⟩ <;> rw [hc] <;> simp
    have hfits := hrun
    rw [Ne, chunkRx_eq_overrun, not_or, not_exists] at hfits
    obtain ⟨hline, hlen⟩ := hfits
    refine ⟨by omega, fun len hl => ?_, fun len hl hall => ?_, fun len e f rest hl hdrop hend => ?_⟩
    · have := hlen len
      simp only [hl, true_and, not_or] at this
      omega
    · have := hlen len
      simp only [hl, true_and, not_or] at this
      omega
    · have htaken := chunkRx_of_end hrun hl hdrop hend
      rw [htaken] at hok
      rcases hok with hc | ⟨v, rest', hc, hann, hnl⟩
      · cases hc
      · cases hc
        rw [Int.toNat_natCast, hnl] at hdrop
        refine ⟨(List.cons.inj hdrop).1.symm, v, ?_, hann⟩
        -- what is returned is an `int`
        have hlt := chunkLen_lt hl
        omega
  · intro hplain
    have hrun : chunkRx line next r.length ≠ .overrun := by
      rw [Ne, chunkRx_eq_overrun, not_or, not_exists]
      refine ⟨Nat.not_le.mpr hplain.line_fits, fun len ⟨hl, hover⟩ => ?_⟩
      have h1 := hplain.data_fits len hl
      have h2 := hplain.end_fits len hl
      omega
    cases hc : chunkRx line next r.length with
    | overrun => exact absurd hc hrun
    | failure => exact .inl rfl
    | chunk len =>
      obtain ⟨hlen, e, f, rest, hdrop, hend⟩ := chunkRx_eq_chunk hc
      obtain ⟨rfl, v, hv, hann⟩ := hplain.plain len e f rest hlen hdrop hend
      obtain rfl : len = v := by
        have := hann.chunkLen_eq hv
        rw [hlen] at this
        exact Option.some.inj this
      rw [iscrlf_eq_two hend rfl] at hdrop
      exact .inr ⟨v, rest, rfl, hann, hdrop⟩

/-- A connection that hands out a chunk, and a buffer of 64 bytes. -/
def chunkConn (line next : Bytes) : Http where
  mem := List.replicate 64 0
  turns := [.part 3, .eintr]
  stream := line ++ next

theorem chunkConn_next {line next w : Bytes} (h : line = w ++ [10]) (hw : ∀ b ∈ w, b ≠ 10) :
    ChunkNext (chunkConn line next) [] (List.replicate 64 0) line next where
  turns := fun t ht => by
    rcases List.mem_pair.mp ht with rfl | rfl
    · exact .inr ⟨3, rfl⟩
    · exact .inl rfl
  mem := rfl
  rxp := rfl
  stream := rfl
  line := ⟨w, h, hw⟩

theorem chunk_size_kept_five :
    SizeKept (chunkConn (ascii "5\r\n") (ascii "hello\r\n")) [] (ascii "5\r\n")
      (ascii "hello\r\n") := by
  have hnext : ChunkNext (chunkConn (ascii "5\r\n") (ascii "hello\r\n")) [] (List.replicate 64 0)
      (ascii "5\r\n") (ascii "hello\r\n") :=
    chunkConn_next (w := ascii "5\r") (by decide +kernel) (by decide +kernel)
  have hann : Announces (ascii "5\r\n") 5 :=
    ⟨ascii "5", 13, [10], by decide +kernel, by decide, by decide +kernel, rfl, by decide +kernel⟩
  have hlen := hann.chunkLen_eq (by decide)
  have hplain : PlainChunk (ascii "5\r\n") (ascii "hello\r\n") 64 := by
    refine ⟨by decide, fun len hl => ?_, fun len hl _ => ?_, fun len e f rest hl hdrop _ => ?_⟩
    · cases hlen.symm.trans hl
      omega
    · cases hlen.symm.trans hl
      omega
    · cases hlen.symm.trans hl
      have hd : (ascii "hello\r\n").drop 5 = [13, 10] := by decide
      rw [Int.toNat_natCast, hd] at hdrop
      cases hdrop
      exact ⟨rfl, 5, by decide, hann⟩
  rcases (chunk_size_kept_iff hnext).mpr (by rw [List.length_replicate]; exact hplain) with hf | hk
  · have hc : chunkRx (ascii "5\r\n") (ascii "hello\r\n") 64 = .chunk 5 := by decide +kernel
    rw [failureLogged_iff hnext, List.length_replicate, hc] at hf
    cases hf
  · exact hk

/-- The size is cut to 32 bits: of a chunk of more than 4 gigabytes, 5 bytes are taken, and the
bytes behind them pass for its end. -/
theorem chunk_size_wraps :
    Announces (ascii "100000005\r\n") 0x100000005 ∧
      (httpRxchunk (chunkConn (ascii "100000005\r\n") (ascii "hello\r\n"))).map (·.1) = .ok 5 ∧
      ¬(FailureLogged (chunkConn (ascii "100000005\r\n") (ascii "hello\r\n")) ∨
        SizeKept (chunkConn (ascii "100000005\r\n") (ascii "hello\r\n")) []
          (ascii "100000005\r\n") (ascii "hello\r\n")) := by
  have hnext : ChunkNext (chunkConn (ascii "100000005\r\n") (ascii "hello\r\n")) []
      (List.replicate 64 0) (ascii "100000005\r\n") (ascii "hello\r\n") :=
    chunkConn_next (w := ascii "100000005\r") (by decide +kernel) (by decide +kernel)
  have hann : Announces (ascii "100000005\r\n") 0x100000005 :=
    ⟨ascii "100000005", 13, [10], by decide +kernel, by decide, by decide +kernel, rfl,
      by decide +kernel⟩
  have hc : chunkRx (ascii "100000005\r\n") (ascii "hello\r\n") 64 = .chunk 5 := by
    decide +kernel
  refine ⟨hann, by decide +kernel, ?_⟩
  rw [failureLogged_iff hnext, sizeKept_iff hnext, List.length_replicate, hc]
  rintro (hf | ⟨v, rest, hv, hann', -⟩)
  · cases hf
  · have hval : v = 0x100000005 := hann'.value.symm.trans hann.value
    rw [hval] at hv
    exact absurd hv (by decide)

end Http1
end VTest
