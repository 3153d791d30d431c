import VTest.Hpack.HuffCode

/-!
# VTest.Hpack.HuffmanSpec

`huff_decode` and `huff_encode` against the code.

A bit string is in one way a sequence of codes and a rest inside the code tree. `huff_decode`
follows this splitting, the end of string among the symbols, and decides by the rest alone
(`Ends`): it looks at the bits behind the last whole byte of the rest, and takes the rest for
padding when there are none, or when they are ones.

* `huffDecLoop_ends`: the loop, from any table.
* `huffDecode_valid`: what RFC 7541 section 5.2 accepts is decoded.
* `huffEncLoop_wrote`: what the encoder writes.
-/

namespace VTest
namespace Hpack

open CodeTree

def Ones (l : List Bool) : Prop := ∀ b ∈ l, b = true

theorem ones_iff {l : List Bool} : Ones l ↔ l = List.replicate l.length true :=
  List.eq_replicate_length.symm

/-! ## Decoding -/

theorem fillPack_ok {inp : Bytes} : ∀ {pack : UInt64} {held : List Bool} (done tail : Bytes),
    Packed pack held → ∃ a b pack', inp = a ++ b ∧
      fillPack inp.length pack held.length ⟨done, inp ++ tail⟩ =
        .ok (pack', (held ++ bytesBits a).length, b.length, ⟨done ++ a, b ++ tail⟩) ∧
      Packed pack' (held ++ bytesBits a) ∧ (b = [] ∨ 56 < (held ++ bytesBits a).length) := by
  induction inp with
  | nil =>
    intro pack held done tail h
    exact ⟨[], [], pack, rfl, by simp [fillPack], by simpa using h, .inl rfl⟩
  | cons c inp ih =>
    intro pack held done tail h
    by_cases hle : held.length ≤ 56
    · have hp := h.push (s := 8) (v := c.toNat) (by omega) (by omega) c.toNat_lt
      have hword : UInt64.ofNat c.toNat = c.toUInt64 := by
        rw [← UInt64.toNat_inj, toNat_ofNat_lt (by have := c.toNat_lt; omega),
          UInt8.toNat_toUInt64]
      rw [hword, show 64 - (held.length + 8) = 56 - held.length by omega] at hp
      obtain ⟨a, b, pack', rfl, hf, hp', hend⟩ := ih (done ++ [c]) tail hp
      rw [List.append_assoc held, ← bytesBits_cons] at hf hp' hend
      refine ⟨c :: a, b, pack', rfl, ?_, hp', hend⟩
      rw [List.length_cons, List.cons_append, fillPack, if_pos hle]
      simp only [List.length_append, length_toBits] at hf ⊢
      rw [hf, List.append_assoc done, List.singleton_append]
    · refine ⟨[], c :: inp, pack, rfl, ?_, by simpa using h, .inr (by simp; omega)⟩
      rw [List.length_cons, fillPack, if_neg hle]
      simp

/-- The bits behind the last whole byte. -/
def tailBits (r : List Bool) : List Bool := r.drop (8 * (r.length / 8))

theorem tailBits_append {p : List Bool} (h : 8 ∣ p.length) (r : List Bool) :
    tailBits (p ++ r) = tailBits r := by
  obtain ⟨k, hk⟩ := h
  have hdiv : (p.length + r.length) / 8 = k + r.length / 8 := by omega
  rw [tailBits, List.length_append, hdiv, tailBits, Nat.mul_add, ← hk, List.drop_length_add_append]

theorem tailBits_short {r : List Bool} (h : r.length < 8) : tailBits r = r := by
  rw [tailBits, Nat.div_eq_of_lt h]
  rfl

/-- How the loop ends when the codes before the rest `r` have given `str`. -/
inductive Ends (str : Bytes) (r : List Bool) (done tail : Bytes) :
    Res (Bytes × HpkIter) → Prop where
  | padding (h : tailBits r = [] ∨ r.length < 8 ∧ Ones r) :
      Ends str r done tail (.ok (str, ⟨done, tail⟩))
  | abort (h8 : 8 ≤ r.length) (hne : tailBits r ≠ []) (h1 : Ones (tailBits r)) :
      Ends str r done tail (.error .assert)
  | refused (hn : ¬ Ones (tailBits r)) (it : HpkIter) : Ends str r done tail (.ok ([], it))

theorem path_dvd (pfx : Nat) : 8 ∣ (path pfx).length := by
  rw [path]
  split
  · exact ⟨0, rfl⟩
  · split
    · exact ⟨1, length_toBits _ _⟩
    · split
      · exact ⟨2, length_toBits _ _⟩
      · exact ⟨3, length_toBits _ _⟩

theorem path_pos {pfx : Nat} (h : pfx ≠ 0) : 8 ≤ (path pfx).length := by
  have hd := path_dvd pfx
  have hne : (path pfx).length ≠ 0 := by
    rw [path, if_neg h]
    split
    · simp
    · split <;> simp
  omega

/-- The bits of an entry lead to a place in the tree. -/
theorem Entry.reaches {pfx : Nat} {c : List Bool} {e : Ssym} (h : Entry pfx c e) :
    ∃ x, huffTree.walk (path pfx ++ c) = (x, []) := by
  cases h with
  | sym a hw _ _ => exact ⟨_, hw⟩
  | esc nxt _ hm hp =>
    refine ⟨(huffTree.walk (path nxt)).1, ?_⟩
    rw [← hp, ← walk_snd_of_inside (tbl_ok hm).inside]

theorem mask_eq {pack : UInt64} {held : List Bool} (h : Packed pack held) {n : Nat} (h0 : 0 < n)
    (h64 : n ≤ 64) : mask pack n = ofBits ((held ++ List.replicate n false).take n) :=
  h.top h0 h64

/-- The test for padding. -/
theorem mask_ones_iff {pack : UInt64} {held : List Bool} (h : Packed pack held) :
    (held.length = 0 ∨ mask pack held.length = 2 ^ held.length - 1) ↔ Ones held := by
  by_cases h0 : held.length = 0
  · rw [List.length_eq_zero_iff.mp h0]
    simp [Ones]
  · have hm := mask_eq h (n := held.length) (by omega) h.le
    rw [List.take_append_of_le_length le_rfl, List.take_length] at hm
    have hones := ofBits_replicate_true held.length
    rw [hm, or_iff_right h0, ones_iff]
    constructor
    · intro he
      exact ofBits_inj (by simp) (by omega)
    · intro he
      rw [← he] at hones
      omega

/-- The lookup of the loop, with `pack` filled up. -/
def huffTurn (n tbl : Nat) (pack : UInt64) (pl ilen : Nat) (str : Bytes) (it : HpkIter) :
    Res (Bytes × HpkIter) := do
  check ((stbl tbl).msk ≠ 0)
  match (stbl tbl).syms[mask pack (stbl tbl).msk]? with
  | none => .error .ub
  | some sym =>
    check (sym.csm ≤ (stbl tbl).msk)
    if sym.csm = 0 ∨ pl < sym.csm then return ([], it)
    check (sym.csm ≤ 8)
    let pack := pack <<< UInt64.ofNat sym.csm
    let pl := pl - sym.csm
    match sym.nxt with
    | some nxt => huffDecLoop n nxt pack pl ilen str it
    | none => huffDecLoop n 0 pack pl ilen (str ++ [sym.chr]) it

-- otherwise the unifier evaluates the tables
attribute [local irreducible] stbl

theorem huffDecLoop_succ (n tbl : Nat) (pack : UInt64) (pl ilen : Nat) (str : Bytes)
    (it : HpkIter) :
    huffDecLoop (n + 1) tbl pack pl ilen str it =
      if ilen = 0 ∧ pl = 0 then .ok (str, it)
      else if pl < (stbl tbl).msk ∧ ilen = 0 ∧ (pl = 0 ∨ mask pack pl = 2 ^ pl - 1) then
        check (tbl = 0) >>= fun _ => .ok (str, it)
      else if pl < (stbl tbl).msk then
        fillPack ilen pack pl it >>= fun p => huffTurn n tbl p.1 p.2.1 p.2.2.1 str p.2.2.2
      else huffTurn n tbl pack pl ilen str it := rfl

/-- The loop from the table `tbl` with the bits `bits` left splits them behind the path of the
table. -/
def Splits (tbl : Nat) (bits : List Bool) (str done tail : Bytes) (x : Res (Bytes × HpkIter)) :
    Prop :=
  ∃ (s : List (Option UInt8)) (r : List Bool), path tbl ++ bits = s.flatMap huffCode ++ r ∧
    huffTree.Inside r ∧ Ends (str ++ s.map symChr) r done tail x

/-- The loop below the fuel `n` splits whatever it is given. -/
def SplitsBelow (n : Nat) : Prop :=
  ∀ {tbl : Nat} {pack : UInt64} {held : List Bool} {inp : Bytes} (str done tail : Bytes),
    tbl ∈ tblPfxs → Packed pack held → held.length + 8 * inp.length < n →
    Splits tbl (held ++ bytesBits inp) str (done ++ inp) tail
      (huffDecLoop n tbl pack held.length inp.length str ⟨done, inp ++ tail⟩)

/-- One lookup. It fails only when the bits run out in it, and these are then no padding. -/
theorem huffTurn_splits {n tbl : Nat} {pack : UInt64} {held : List Bool} {inp : Bytes}
    (str done tail : Bytes) (ih : SplitsBelow n) (hm : tbl ∈ tblPfxs) (hp : Packed pack held)
    (hn : held.length + 8 * inp.length < n + 1)
    (hend : (stbl tbl).msk ≤ held.length ∨ inp = [] ∧ ¬ Ones held) :
    Splits tbl (held ++ bytesBits inp) str (done ++ inp) tail
      (huffTurn n tbl pack held.length inp.length str ⟨done, inp ++ tail⟩) := by
  have ht := tbl_ok hm
  have h8 := ht.le
  have h1 := ht.pos
  obtain ⟨e, hget, hpos, hle, hent, _⟩ :=
    ht.entry ((held ++ List.replicate (stbl tbl).msk false).take (stbl tbl).msk) (by simp)
  rw [huffTurn, decide_eq_true (by omega : (stbl tbl).msk ≠ 0), mask_eq hp h1 (by omega), hget]
  simp only [check_true, ok_bind, decide_eq_true hle]
  rw [List.take_take, Nat.min_eq_left hle] at hent
  by_cases hshort : held.length < e.csm
  · -- fewer bits than the entry takes
    rw [if_pos (.inr hshort)]
    obtain ⟨rfl, hno⟩ := hend.resolve_left (by omega)
    refine ⟨[], path tbl ++ held, by simp, ?_, .refused ?_ _⟩
    · obtain ⟨x, hx⟩ := hent.reaches
      rw [List.take_append, List.take_of_length_le (by omega), ← List.append_assoc] at hx
      refine inside_of_walk hx ?_
      rw [List.take_replicate, ne_eq, List.replicate_eq_nil_iff]
      omega
    · rwa [tailBits_append (path_dvd tbl), tailBits_short (by omega)]
  · rw [if_neg (by omega), decide_eq_true (by omega : e.csm ≤ 8), check_true, ok_bind]
    rw [List.take_append_of_le_length (by omega)] at hent
    have hdrop := hp.drop (c := e.csm) (by omega) (by omega)
    have hbits : held ++ bytesBits inp =
        held.take e.csm ++ (held.drop e.csm ++ bytesBits inp) := by
      rw [← List.append_assoc, List.take_append_drop]
    have hlen : held.length - e.csm = (held.drop e.csm).length := by simp
    have hfuel : (held.drop e.csm).length + 8 * inp.length < n := by
      rw [← hlen]
      omega
    simp only [hlen]
    cases hent with
    | sym a hw hnx hc =>
      -- the root is the first table, and its path is empty
      obtain ⟨s, r, hs, hr, he⟩ :=
        ih (str ++ [e.chr]) done tail (List.mem_cons_self : 0 ∈ tblPfxs) hdrop hfuel
      refine ⟨a :: s, r, ?_, hr, ?_⟩
      · have hcode := huffCode_of_mem (mem_codes_of_walk hw)
        rw [hbits, ← List.append_assoc, hcode, List.flatMap_cons, List.append_assoc, ← hs]
        rfl
      · rw [hnx, List.map_cons, ← hc, ← List.singleton_append, ← List.append_assoc]
        exact he
    | esc nxt hnx hmn hpath =>
      obtain ⟨s, r, hs, hr, he⟩ := ih str done tail hmn hdrop hfuel
      refine ⟨s, r, ?_, hr, ?_⟩
      · rw [← hs, hpath, hbits, List.append_assoc]
      · rw [hnx]
        exact he

/-- Nothing is left: the rest is the path of the table. -/
theorem splits_nil {tbl : Nat} (ht : TblOk tbl) (str done tail : Bytes) :
    Splits tbl [] str done tail (.ok (str, ⟨done, tail⟩)) := by
  refine ⟨[], path tbl, by simp, ht.inside, ?_⟩
  have htail : tailBits (path tbl) = [] := by
    rw [← List.append_nil (path tbl), tailBits_append (path_dvd tbl)]
    rfl
  simpa using Ends.padding (.inl htail)

/-- Fewer ones than the table takes end inside a code. -/
theorem TblOk.inside_ones {tbl : Nat} (ht : TblOk tbl) {held : List Bool} (hones : Ones held)
    (hlt : held.length < (stbl tbl).msk) : huffTree.Inside (path tbl ++ held) := by
  obtain ⟨e, _, _, _, hent, hfull⟩ := ht.entry (List.replicate (stbl tbl).msk true) (by simp)
  obtain ⟨x, hx⟩ := hent.reaches
  have hsplit : List.replicate (stbl tbl).msk true =
      held ++ List.replicate ((stbl tbl).msk - held.length) true := by
    rw [ones_iff.mp hones, List.length_replicate, List.replicate_append_replicate,
      Nat.add_sub_cancel' (by omega)]
  rw [hfull rfl, List.take_of_length_le (by simp), hsplit, ← List.append_assoc] at hx
  refine inside_of_walk hx ?_
  rw [ne_eq, List.replicate_eq_nil_iff]
  omega

/-- The bits that are left are ones, which the root takes for padding. -/
theorem splits_ones {tbl : Nat} (ht : TblOk tbl) {held : List Bool} (hones : Ones held)
    (hne : held ≠ []) (hlt : held.length < (stbl tbl).msk) (str done tail : Bytes) :
    Splits tbl held str done tail (check (tbl = 0) >>= fun _ => .ok (str, ⟨done, tail⟩)) := by
  have h8 := ht.le
  refine ⟨[], path tbl ++ held, by simp, ht.inside_ones hones hlt, ?_⟩
  by_cases h0 : tbl = 0
  · subst h0
    have hr : path 0 ++ held = held := rfl
    rw [hr, decide_eq_true rfl, check_true, ok_bind, List.map_nil, List.append_nil]
    exact .padding (.inr ⟨by omega, hones⟩)
  · rw [decide_eq_false h0, check_false, error_bind]
    have hlen := path_pos h0
    have htail : tailBits (path tbl ++ held) = held := by
      rw [tailBits_append (path_dvd tbl), tailBits_short (by omega)]
    refine .abort (by rw [List.length_append]; omega) ?_ (by rwa [htail])
    rw [htail]
    exact hne

theorem huffDecLoop_splits (n : Nat) : SplitsBelow n := by
  induction n with
  | zero =>
    intro tbl pack held inp str done tail _ _ hn
    omega
  | succ n ih =>
    intro tbl pack held inp str done tail hm hp hn
    have ht := tbl_ok hm
    have h8 := ht.le
    rw [huffDecLoop_succ]
    by_cases hend : inp.length = 0 ∧ held.length = 0
    · rw [if_pos hend]
      obtain ⟨hi, hh⟩ := hend
      obtain rfl := List.length_eq_zero_iff.mp hi
      obtain rfl := List.length_eq_zero_iff.mp hh
      rw [List.append_nil]
      exact splits_nil ht str done tail
    rw [if_neg hend]
    by_cases hpad : held.length < (stbl tbl).msk ∧ inp.length = 0 ∧
        (held.length = 0 ∨ mask pack held.length = 2 ^ held.length - 1)
    · rw [if_pos hpad]
      obtain ⟨hlt, hi, hones⟩ := hpad
      rw [mask_ones_iff hp] at hones
      obtain rfl := List.length_eq_zero_iff.mp hi
      have hne : held ≠ [] := by
        rintro rfl
        exact hend ⟨rfl, rfl⟩
      have hbits : held ++ bytesBits [] = held := List.append_nil held
      rw [hbits, List.append_nil]
      exact splits_ones ht hones hne hlt str done tail
    rw [if_neg hpad]
    by_cases hlt : held.length < (stbl tbl).msk
    · obtain ⟨a, b, pack', rfl, hf, hp', hb⟩ := @fillPack_ok inp _ _ done tail hp
      rw [if_pos hlt, hf, ok_bind]
      have hbits : held ++ bytesBits (a ++ b) = held ++ bytesBits a ++ bytesBits b := by simp
      rw [hbits, ← List.append_assoc]
      refine huffTurn_splits str (done ++ a) tail ih hm hp' ?_ ?_
      · simp only [List.length_append, length_bytesBits] at hn ⊢
        omega
      · simp only [List.length_append, length_bytesBits] at hb ⊢
        cases a with
        | nil =>
          have hb0 : b = [] := hb.resolve_right (by simp; omega)
          subst hb0
          refine .inr ⟨rfl, fun hones => hpad ⟨hlt, rfl, (mask_ones_iff hp).mpr ?_⟩⟩
          simpa using hones
        | cons c a =>
          left
          simp only [List.length_cons]
          omega
    · rw [if_neg hlt]
      exact huffTurn_splits str done tail ih hm hp hn (.inl (by omega))

theorem huffDecode_splits (done b tail : Bytes) :
    Splits 0 (bytesBits b) [] (done ++ b) tail (huffDecode ⟨done, b ++ tail⟩ b.length) :=
  huffDecLoop_splits (8 * b.length + 1) [] done tail (List.mem_cons_self : 0 ∈ tblPfxs)
    Packed.empty (by simp)

/-! ## What is accepted -/

/-- RFC 7541 section 5.2: `b` is the codes of `s`, and then at most seven ones. -/
def ValidHuff (b s : Bytes) : Prop :=
  ∃ pad, bytesBits b = s.flatMap (fun c => huffCode (some c)) ++ pad ∧ pad.length ≤ 7 ∧ Ones pad

/-- `r` is the beginning of a code, but not all of it. -/
def Partial (r : List Bool) : Prop := ∃ a d, d ≠ [] ∧ huffCode a = r ++ d

theorem inside_iff_unfinished {r : List Bool} : huffTree.Inside r ↔ Partial r := by
  constructor
  · intro h
    obtain ⟨a, d, hd, hm⟩ := h.extends
    exact ⟨a, d, hd, (huffCode_of_mem hm).symm⟩
  · rintro ⟨a, d, hd, he⟩
    have hw := walk_code (huffCode_mem a) []
    rw [List.append_nil, he] at hw
    exact inside_of_walk hw hd

theorem inside_of_ones {r : List Bool} (h : Ones r) (hl : r.length ≤ 7) : huffTree.Inside r := by
  refine inside_iff_unfinished.mpr ⟨none, List.replicate (30 - r.length) true, ?_, ?_⟩
  · rw [ne_eq, List.replicate_eq_nil_iff]
    omega
  · rw [ones_iff.mp h, List.length_replicate, List.replicate_append_replicate,
      Nat.add_sub_cancel' (by omega)]
    rfl

/-- The decoder follows the splitting of its input. -/
theorem huffDecode_ends {b : Bytes} {s : List (Option UInt8)} {r : List Bool}
    (hs : bytesBits b = s.flatMap huffCode ++ r) (hr : Partial r) (done tail : Bytes) :
    Ends (s.map symChr) r (done ++ b) tail (huffDecode ⟨done, b ++ tail⟩ b.length) := by
  obtain ⟨s', r', hs', hr', he⟩ := huffDecode_splits done b tail
  obtain ⟨rfl, rfl⟩ := split_unique huffCode_mem (hs.symm.trans hs') (inside_iff_unfinished.mpr hr)
    hr'
  exact he

theorem flatMap_some (s : Bytes) :
    s.flatMap (fun c => huffCode (some c)) = (s.map some).flatMap huffCode := by
  rw [List.flatMap_map]

theorem map_symChr_some (s : Bytes) : (s.map some).map symChr = s := by
  rw [List.map_map]
  exact List.map_id s

/-- A valid text is the splitting of the decoder. -/
theorem ValidHuff.split {b t : Bytes} (hv : ValidHuff b t) {s : List (Option UInt8)}
    {r : List Bool} (hs : bytesBits b = s.flatMap huffCode ++ r) (hr : huffTree.Inside r) :
    s = t.map some ∧ r.length ≤ 7 ∧ Ones r := by
  obtain ⟨pad, hb, hl, h1⟩ := hv
  rw [flatMap_some] at hb
  obtain ⟨rfl, rfl⟩ := split_unique huffCode_mem (hs.symm.trans hb) hr (inside_of_ones h1 hl)
  exact ⟨rfl, hl, h1⟩

theorem huffDecode_valid {b s : Bytes} (h : ValidHuff b s) (done tail : Bytes) :
    huffDecode ⟨done, b ++ tail⟩ b.length = .ok (s, ⟨done ++ b, tail⟩) := by
  obtain ⟨pad, hb, hl, h1⟩ := h
  rw [flatMap_some] at hb
  have he := huffDecode_ends hb (inside_iff_unfinished.mp (inside_of_ones h1 hl)) done tail
  rw [map_symChr_some] at he
  have htail := tailBits_short (r := pad) (by omega)
  generalize huffDecode _ _ = x at he ⊢
  cases he with
  | padding _ => rfl
  | abort h8 _ _ => omega
  | refused hn _ => exact absurd (htail.symm ▸ h1) hn

/-- `huff_decode` runs into no assertion on `b`, gives the text of a valid `b`, and nothing for
any other. -/
def Judged (done b tail : Bytes) : Prop :=
  ∃ str it, huffDecode ⟨done, b ++ tail⟩ b.length = .ok (str, it) ∧
    (∀ s, s ≠ [] → ValidHuff b s → str = s) ∧ (str ≠ [] → ∃ s, s ≠ [] ∧ ValidHuff b s)

/-- `b` is the codes of `s`, the end of string among them as `none`, and a beginning `r` of a
code, and
* there is an end of string, and `r` would be padding, or
* `r` is one or more whole bytes, behind at least one code, or
* `r` is one or more whole bytes and then one to seven ones. -/
def Misjudged (b : Bytes) : Prop :=
  ∃ (s : List (Option UInt8)) (r : List Bool), bytesBits b = s.flatMap huffCode ++ r ∧ Partial r ∧
    ((none ∈ s ∧ r.length ≤ 7 ∧ Ones r) ∨
      (8 ≤ r.length ∧ tailBits r = [] ∧ s ≠ []) ∨
      (8 ≤ r.length ∧ tailBits r ≠ [] ∧ Ones (tailBits r)))

theorem exists_map_some {s : List (Option UInt8)} (h : none ∉ s) :
    ∃ t : Bytes, s = t.map some := by
  induction s with
  | nil => exact ⟨[], rfl⟩
  | cons a s ih =>
    obtain ⟨t, rfl⟩ := ih fun hm => h (List.mem_cons_of_mem _ hm)
    cases a with
    | none => exact absurd List.mem_cons_self h
    | some c => exact ⟨c :: t, rfl⟩

/-- The three ways to misjudge, for the splitting that the decoder follows. -/
theorem misjudged_iff {b : Bytes} {s : List (Option UInt8)} {r : List Bool}
    (hs : bytesBits b = s.flatMap huffCode ++ r) (hr : huffTree.Inside r) :
    Misjudged b ↔ (none ∈ s ∧ r.length ≤ 7 ∧ Ones r) ∨ (8 ≤ r.length ∧ tailBits r = [] ∧ s ≠ []) ∨
      (8 ≤ r.length ∧ tailBits r ≠ [] ∧ Ones (tailBits r)) := by
  constructor
  · rintro ⟨s', r', hs', hr', h⟩
    obtain ⟨rfl, rfl⟩ := split_unique huffCode_mem (hs.symm.trans hs') hr
      (inside_iff_unfinished.mpr hr')
    exact h
  · intro h
    exact ⟨s, r, hs, inside_iff_unfinished.mp hr, h⟩

theorem valid_iff {b : Bytes} {s : List (Option UInt8)} {r : List Bool}
    (hs : bytesBits b = s.flatMap huffCode ++ r) (hr : huffTree.Inside r) (t : Bytes) :
    ValidHuff b t ↔ s = t.map some ∧ r.length ≤ 7 ∧ Ones r := by
  constructor
  · intro h
    exact h.split hs hr
  · rintro ⟨rfl, hl, h1⟩
    exact ⟨r, by rw [hs, flatMap_some], hl, h1⟩

theorem huffman_judged_iff (done b tail : Bytes) : Judged done b tail ↔ ¬ Misjudged b := by
  obtain ⟨s, r, hs, hr, he⟩ := huffDecode_splits done b tail
  rw [misjudged_iff hs hr, Judged]
  simp only [valid_iff hs hr]
  generalize huffDecode _ _ = x at he ⊢
  rw [List.nil_append] at he
  cases he with
  | padding h =>
    by_cases h8 : 8 ≤ r.length
    · have htail : tailBits r = [] := h.resolve_right (by omega)
      by_cases hnil : s = []
      · subst hnil
        refine iff_of_true ⟨_, _, rfl, fun t ht hv => by omega, fun h => absurd rfl h⟩ ?_
        rintro (⟨hm, _⟩ | ⟨_, _, hne⟩ | ⟨_, hne, _⟩)
        · cases hm
        · exact hne rfl
        · exact hne htail
      · refine iff_of_false ?_ (not_not_intro (.inr (.inl ⟨h8, htail, hnil⟩)))
        rintro ⟨str, it, hok, _, hsome⟩
        cases hok
        obtain ⟨_, _, _, hl, _⟩ := hsome (by simpa using hnil)
        omega
    · have h1 : Ones r := by
        rcases h with h | h
        · rw [tailBits_short (by omega)] at h
          rw [h]
          simp [Ones]
        · exact h.2
      by_cases hm : none ∈ s
      · refine iff_of_false ?_ (not_not_intro (.inl ⟨hm, by omega, h1⟩))
        rintro ⟨str, it, hok, _, hsome⟩
        cases hok
        obtain ⟨t, _, rfl, _⟩ := hsome (by simpa using List.ne_nil_of_mem hm)
        simp at hm
      · obtain ⟨t, rfl⟩ := exists_map_some hm
        rw [map_symChr_some]
        refine iff_of_true ⟨t, _, rfl, fun t' _ hv => ?_, fun hne => ⟨t, hne, rfl, by omega, h1⟩⟩ ?_
        · exact List.map_injective_iff.mpr (Option.some_injective _) hv.1
        · rintro (⟨hm', _⟩ | ⟨hl, _⟩ | ⟨hl, _⟩)
          · exact hm hm'
          · omega
          · omega
  | abort h8 hne h1 =>
    refine iff_of_false ?_ (not_not_intro (.inr (.inr ⟨h8, hne, h1⟩)))
    rintro ⟨_, _, hok, _⟩
    cases hok
  | refused hn it =>
    refine iff_of_true ⟨[], it, rfl, fun t _ hv => ?_, fun h => absurd rfl h⟩ ?_
    · exact absurd ((tailBits_short (r := r) (by omega)).symm ▸ hv.2.2) hn
    · rintro (⟨_, hl, h1⟩ | ⟨_, htail, _⟩ | ⟨_, _, h1⟩)
      · exact hn ((tailBits_short (r := r) (by omega)).symm ▸ h1)
      · exact hn (by rw [htail]; simp [Ones])
      · exact hn h1

/-- The code of `a` and then eleven ones: behind the first eight the decoder is in another table
than the root. -/
theorem long_padding_aborts : huffDecode ⟨[], [0x1f, 0xff]⟩ 2 = .error .assert ∧
    ¬ Judged [] [0x1f, 0xff] [] := by
  have hbits : bytesBits [0x1f, 0xff] =
      [some 0x61].flatMap huffCode ++ List.replicate 11 true := by decide +kernel
  have hpart : Partial (List.replicate 11 true) :=
    ⟨none, List.replicate 19 true, by simp, by rw [List.replicate_append_replicate]; rfl⟩
  have hend : huffDecode ⟨[], [0x1f, 0xff]⟩ 2 = .error .assert := by
    have he : Ends _ _ _ [] (huffDecode ⟨[], [0x1f, 0xff]⟩ 2) := huffDecode_ends hbits hpart [] []
    generalize huffDecode _ _ = x at he ⊢
    cases he with
    | padding h => simp [tailBits] at h
    | abort _ _ _ => rfl
    | refused hn _ => exact absurd (by simp [tailBits, Ones]) hn
  refine ⟨hend, ?_⟩
  rintro ⟨_, _, hok, _⟩
  cases hend.symm.trans hok

/-! ## Encoding -/

theorem emitBytes_ok (n : Nat) : ∀ {pack : UInt64} {held : List Bool} (done left : Bytes),
    Packed pack held → held.length < 8 * (n + 1) → held.length / 8 ≤ left.length →
    ∃ w rest pack', held = bytesBits w ++ rest ∧ rest.length < 8 ∧ Packed pack' rest ∧
      emitBytes n pack held.length ⟨done, left⟩ =
        (false, pack', rest.length, ⟨done ++ w, left.drop w.length⟩) := by
  induction n with
  | zero =>
    intro pack held done left hp hn _
    refine ⟨[], held, pack, rfl, by omega, hp, ?_⟩
    simp [emitBytes]
  | succ n ih =>
    intro pack held done left hp hn hroom
    by_cases h8 : 8 ≤ held.length
    · cases left with
      | nil =>
        simp only [List.length_nil] at hroom
        omega
      | cons x left =>
        have hp' := hp.drop (c := 8) h8 (by omega)
        have hlen : (held.drop 8).length = held.length - 8 := by simp
        obtain ⟨w, rest, pack', hheld, hr, hpr, hemit⟩ :=
          ih (done ++ [(pack >>> 56).toUInt8]) left hp' (by omega)
            (by simp only [List.length_cons] at hroom; omega)
        refine ⟨(pack >>> 56).toUInt8 :: w, rest, pack', ?_, hr, hpr, ?_⟩
        · rw [bytesBits_cons, hp.top_byte h8, List.append_assoc, ← hheld, List.take_append_drop]
        · rw [emitBytes, if_pos h8]
          rw [hlen, List.append_assoc, List.singleton_append] at hemit
          exact hemit
    · refine ⟨[], held, pack, rfl, by omega, hp, ?_⟩
      rw [emitBytes, if_neg h8]
      simp

/-- The number of bits of the codes of `str`. -/
def codeLen (str : Bytes) : Nat := (str.map fun c => (codingTable.getD c.toNat (0, 0)).2).sum

theorem codeLen_eq (str : Bytes) :
    (str.flatMap fun c => huffCode (some c)).length = codeLen str := by
  induction str with
  | nil => rfl
  | cons c str ih =>
    rw [List.flatMap_cons, List.length_append, ih, huffCode_some, length_toBits]
    rfl

/-- With room for the codes, the encoder writes them and fills up the last byte with ones. -/
theorem huffEncLoop_wrote (str : Bytes) : ∀ {pack : UInt64} {held : List Bool}
    (done left : Bytes), Packed pack held → held.length < 8 →
    (held.length + codeLen str + 7) / 8 ≤ left.length →
    ∃ w pad, huffEncLoop str pack held.length ⟨done, left⟩ =
        .ok (.more, ⟨done ++ w, left.drop w.length⟩) ∧
      bytesBits w = held ++ str.flatMap (fun c => huffCode (some c)) ++ pad ∧
      pad.length ≤ 7 ∧ Ones pad := by
  induction str with
  | nil =>
    intro pack held done left hp h8 hroom
    by_cases h0 : held.length = 0
    · obtain rfl := List.length_eq_zero_iff.mp h0
      refine ⟨[], [], ?_, rfl, by simp, by simp [Ones]⟩
      simp [huffEncLoop]
    · cases left with
      | nil =>
        simp only [codeLen, List.map_nil, List.sum_nil, List.length_nil] at hroom
        omega
      | cons x left =>
        have hpad := hp.push (s := 8) (v := 0xff) (by omega) (by omega) (by omega)
        have hones : toBits 8 0xff = List.replicate 8 true := rfl
        rw [hones] at hpad
        have hbyte := hpad.top_byte (by simp)
        refine ⟨[((pack ||| 0xff <<< UInt64.ofNat (64 - (held.length + 8))) >>> 56).toUInt8],
          List.replicate (8 - held.length) true, ?_, ?_, by simp; omega,
          fun b hb => List.eq_of_mem_replicate hb⟩
        · rw [huffEncLoop, if_pos h0, decide_eq_true h8, check_true, ok_bind]
          rfl
        · rw [bytesBits_cons, bytesBits_nil, List.append_nil]
          refine hbyte.trans ?_
          rw [List.take_append, List.take_of_length_le (by omega), List.take_replicate,
            Nat.min_eq_left (by omega), List.flatMap_nil, List.append_nil]
  | cons c str ih =>
    intro pack held done left hp h8 hroom
    obtain ⟨h5, h30, hv⟩ := codingTable_bounds _ (codingTable_mem c)
    have hp' := hp.push (s := (codingTable.getD c.toNat (0, 0)).2) (by omega) (by omega) hv
    rw [← huffCode_some] at hp'
    have hlen : held.length + (codingTable.getD c.toNat (0, 0)).2 =
        (held ++ huffCode (some c)).length := by
      rw [List.length_append, huffCode_some, length_toBits]
    rw [hlen] at hp'
    have hcode : codeLen (c :: str) = (codingTable.getD c.toNat (0, 0)).2 + codeLen str := rfl
    rw [hcode, ← Nat.add_assoc, hlen] at hroom
    obtain ⟨w, rest, pack', hheld, hr, hpr, hemit⟩ :=
      emitBytes_ok (held ++ huffCode (some c)).length done left hp' (by omega) (by omega)
    have hl := congrArg List.length hheld
    have hw : (bytesBits w ++ rest).length = 8 * w.length + rest.length := by simp
    rw [hw] at hl
    obtain ⟨w', pad, henc, hbits, hpl, hp1⟩ := ih (done ++ w) (left.drop w.length) hpr hr
      (by rw [List.length_drop]; omega)
    refine ⟨w ++ w', pad, ?_, ?_, hpl, hp1⟩
    · rw [huffEncLoop]
      simp only [hlen, hemit]
      rw [henc, List.append_assoc, List.length_append, List.drop_drop]
    · rw [bytesBits_append, hbits, List.flatMap_cons, ← List.append_assoc held, hheld]
      simp only [List.append_assoc]

theorem codeLen_pos {str : Bytes} (hne : str ≠ []) : 5 ≤ codeLen str := by
  obtain ⟨c, str, rfl⟩ := List.exists_cons_of_ne_nil hne
  have := (codingTable_bounds _ (codingTable_mem c)).1
  exact Nat.le_trans this (Nat.le_add_right _ _)

theorem huffSimulate_true {str : Bytes} (hne : str ≠ []) :
    huffSimulate str true = (codeLen str + 7) / 8 := by
  rw [huffSimulate, if_neg (by simpa using hne)]
  rfl

theorem huffEncode_wrote {str : Bytes} (hne : str ≠ []) {it : HpkIter}
    (hroom : huffSimulate str true ≤ it.left.length) :
    ∃ w, w.length = huffSimulate str true ∧
      huffEncode it str = .ok (.more, ⟨it.done ++ w, it.left.drop w.length⟩) ∧
      ValidHuff w str := by
  have hsim := huffSimulate_true hne
  have hpos := codeLen_pos hne
  have hleft : it.left ≠ [] := by
    intro h
    rw [h, List.length_nil] at hroom
    omega
  obtain ⟨w, pad, henc, hbits, hpl, hp1⟩ := huffEncLoop_wrote str it.done it.left
    Packed.empty (by simp) (by simpa using hsim ▸ hroom)
  have hl := congrArg List.length hbits
  rw [length_bytesBits, List.nil_append, List.length_append, codeLen_eq] at hl
  refine ⟨w, by omega, ?_, pad, by simpa using hbits, hpl, hp1⟩
  rw [huffEncode, List.isEmpty_eq_false_iff.mpr hleft]
  exact henc

end Hpack
end VTest
