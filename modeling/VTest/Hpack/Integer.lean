import VTest.Lib.Varint
import VTest.Hpack.Sync

/-!
# VTest.Hpack.Integer

The prefixed integers of RFC 7541 section 5.1 and `num_decode` / `num_encode`.

* `rfcInt`: the value the RFC gives to a byte string, and the bytes behind it.
* `numDecLoop_step`: one turn of the loop of `num_decode`, in exact arithmetic.
* `numDecLoop_outcome`: the three ways the loop ends; the shift count leaves the width of the
  word exactly on `Overlong` input.
* `numEncode_wrote`: the bytes `num_encode` writes.
-/

namespace VTest
namespace Hpack

/-! ## The number on the wire -/

/-- RFC 7541 section 5.1: the value at the front of `b` and the bytes behind it. -/
def rfcInt (pfx : Nat) : Bytes → Option (Nat × Bytes)
  | [] => none
  | b :: r =>
    if b.toNat % 2 ^ pfx < 2 ^ pfx - 1 then some (b.toNat % 2 ^ pfx, r)
    else (Varint.decode r).map fun p => (2 ^ pfx - 1 + p.1, p.2)

/-- With the value `v` read and the next group of weight `128 ^ k`, the loop gets past the fifth
group: it finds no end and no overflow up to there, and a further byte behind. -/
def Overlong (v k : Nat) (r : Bytes) : Prop :=
  ∃ g rest, r = g ++ rest ∧ rest ≠ [] ∧ g.length + k = 5 ∧ (∀ x ∈ g, 128 ≤ x.toNat) ∧
    v + 128 ^ k * Varint.val g < 2 ^ 32

theorem overlong_five {v : Nat} {r : Bytes} : Overlong v 5 r ↔ r ≠ [] ∧ v < 2 ^ 32 := by
  constructor
  · rintro ⟨g, rest, rfl, hne, hl, _, hv⟩
    have hg : g = [] := List.length_eq_zero_iff.mp (by omega)
    subst hg
    exact ⟨hne, by simpa [Varint.val] using hv⟩
  · rintro ⟨hne, hv⟩
    exact ⟨[], r, rfl, hne, rfl, by simp, by simpa [Varint.val] using hv⟩

theorem overlong_cons {v k : Nat} {c : UInt8} {r : Bytes} (hk : k < 5) :
    Overlong v k (c :: r) ↔
      128 ≤ c.toNat ∧ Overlong (v + 128 ^ k * (c.toNat % 128)) (k + 1) r := by
  have weight (x : Nat) : v + 128 ^ k * (c.toNat % 128 + 128 * x) =
      v + 128 ^ k * (c.toNat % 128) + 128 ^ (k + 1) * x := by
    rw [Nat.pow_succ]
    ring
  constructor
  · rintro ⟨g, rest, he, hne, hl, hg, hv⟩
    cases g with
    | nil => simp only [List.length_nil] at hl; omega
    | cons d g =>
      cases he
      refine ⟨hg _ (by simp), g, rest, rfl, hne, ?_, fun x hx => hg x (by simp [hx]), ?_⟩
      · simp only [List.length_cons] at hl
        omega
      · rwa [← weight]
  · rintro ⟨hc, g, rest, rfl, hne, hl, hg, hv⟩
    refine ⟨c :: g, rest, rfl, hne, ?_, ?_, ?_⟩
    · simp only [List.length_cons]
      omega
    · intro x hx
      rcases List.mem_cons.mp hx with rfl | hx
      · exact hc
      · exact hg x hx
    · rwa [Varint.val, weight]

theorem Overlong.lt {v k : Nat} {r : Bytes} (h : Overlong v k r) : v < 2 ^ 32 := by
  obtain ⟨g, _, _, _, _, _, hv⟩ := h
  omega

/-! ## Bytes and words -/

theorem toNat_and_low {pfx : Nat} (h1 : 1 ≤ pfx) (h8 : pfx ≤ 8) (b : UInt8) :
    (b &&& (0xff >>> UInt8.ofNat (8 - pfx))).toUInt32.toNat = b.toNat % 2 ^ pfx := by
  have hm : (0xff >>> UInt8.ofNat (8 - pfx) : UInt8).toNat = 2 ^ pfx - 1 := by
    interval_cases pfx <;> rfl
  rw [UInt8.toNat_toUInt32, UInt8.toNat_and, hm, Nat.and_two_pow_sub_one_eq_mod]

theorem toNat_and_7f (c : UInt8) : (c &&& 0x7f).toUInt32.toNat = c.toNat % 128 := by
  rw [UInt8.toNat_toUInt32, UInt8.toNat_and]
  exact Nat.and_two_pow_sub_one_eq_mod c.toNat 7

theorem top_bit_iff (c : UInt8) : c &&& 0x80 ≠ 0 ↔ 128 ≤ c.toNat := by
  have h : (c &&& 0x80).toNat = c.toNat / 128 % 2 * 128 := by
    have hbit : (c.toNat.testBit 7).toNat = c.toNat / 128 % 2 := by
      rw [Nat.toNat_testBit]
    rw [UInt8.toNat_and, ← hbit]
    exact Nat.and_two_pow c.toNat 7
  have := c.toNat_lt
  rw [ne_eq, ← UInt8.toNat_inj, h]
  simp only [UInt8.toNat_zero]
  omega

theorem toNat_shiftRight {x : UInt32} {s : Nat} (hs : s < 32) :
    (x >>> UInt32.ofNat s).toNat = x.toNat / 2 ^ s := by
  rw [UInt32.toNat_shiftRight, Nat.shiftRight_eq_div_pow, toNat_ofNat (by omega),
    Nat.mod_eq_of_lt hs]

theorem toNat_shiftLeft {x : UInt32} {s : Nat} (hs : s < 32) (h : x.toNat * 2 ^ s < 2 ^ 32) :
    (x <<< UInt32.ofNat s).toNat = x.toNat * 2 ^ s := by
  rw [UInt32.toNat_shiftLeft, Nat.shiftLeft_eq, toNat_ofNat (by omega), Nat.mod_eq_of_lt hs,
    Nat.mod_eq_of_lt h]

/-! ## Decoding -/

/-- One turn of the loop: the test before the addition is the test for overflow. -/
theorem numDecLoop_step (done r : Bytes) (b c : UInt8) (result : UInt32) {k : Nat} (hk : k < 5) :
    numDecLoop done (b :: c :: r) result (7 * k) =
      if 2 ^ 32 ≤ result.toNat + 128 ^ k * (c.toNat % 128) then
        .ok (.err, result, ⟨done ++ [b], c :: r⟩)
      else if 128 ≤ c.toNat then
        numDecLoop (done ++ [b]) (c :: r)
          (UInt32.ofNat (result.toNat + 128 ^ k * (c.toNat % 128))) (7 * (k + 1))
      else
        .ok ((HpkIter.mk (done ++ [b, c]) r).result,
          UInt32.ofNat (result.toNat + 128 ^ k * (c.toNat % 128)), ⟨done ++ [b, c], r⟩) := by
  have hpow : 2 ^ (7 * k) = 128 ^ k := by rw [Nat.pow_mul]
  have hlt := result.toNat_lt
  have htest : (0xffffffff - result) >>> UInt32.ofNat (7 * k) < (c &&& 0x7f).toUInt32 ↔
      2 ^ 32 ≤ result.toNat + 128 ^ k * (c.toNat % 128) := by
    have hsub : (0xffffffff - result).toNat = 2 ^ 32 - 1 - result.toNat :=
      UInt32.toNat_sub_of_le _ _ (by rw [UInt32.le_iff_toNat_le]; simp; omega)
    rw [UInt32.lt_iff_toNat_lt, toNat_shiftRight (by omega), hsub, hpow, toNat_and_7f,
      Nat.div_lt_iff_lt_mul (Nat.pow_pos (by omega)), Nat.mul_comm]
    omega
  have hsum (h : ¬ 2 ^ 32 ≤ result.toNat + 128 ^ k * (c.toNat % 128)) :
      result + (c &&& 0x7f).toUInt32 <<< UInt32.ofNat (7 * k) =
        UInt32.ofNat (result.toNat + 128 ^ k * (c.toNat % 128)) := by
    rw [← UInt32.toNat_inj, UInt32.toNat_add, toNat_shiftLeft (by omega) (by
      rw [toNat_and_7f, hpow, Nat.mul_comm]; omega), toNat_and_7f, hpow, toNat_ofNat (by omega),
      Nat.mul_comm, Nat.mod_eq_of_lt (by omega)]
  rw [numDecLoop]
  simp only [if_neg (show ¬ 32 ≤ 7 * k by omega), htest, top_bit_iff]
  split
  · rfl
  · rename_i h
    rw [hsum h]
    rfl

/-- How the loop of `num_decode` ends when it stands before `r` with the value `v` read. -/
inductive Outcome (done r : Bytes) (v k : Nat) : Res (HpkResult × UInt32 × HpkIter) → Prop where
  | ub (ho : Overlong v k r) : Outcome done r v k (.error .ub)
  | err {num : UInt32} {it : HpkIter} (ho : ¬ Overlong v k r)
      (hn : ∀ n rest, Varint.decode r = some (n, rest) → 2 ^ 32 ≤ v + 128 ^ k * n) :
      Outcome done r v k (.ok (.err, num, it))
  | num {g : Bytes} {n : Nat} {rest : Bytes} (ho : ¬ Overlong v k r) (hr : r = g ++ rest)
      (hd : Varint.decode r = some (n, rest)) (hlt : v + 128 ^ k * n < 2 ^ 32) :
      Outcome done r v k (.ok ((HpkIter.mk (done ++ g) rest).result,
        UInt32.ofNat (v + 128 ^ k * n), ⟨done ++ g, rest⟩))

/-- An accepted number is at least what was read before, and takes at least the byte that ends
it. -/
theorem Outcome.accepted {done r : Bytes} {v k : Nat} {ret : HpkResult} {num : UInt32}
    {it : HpkIter} (h : Outcome done r v k (.ok (ret, num, it))) (hret : ret ≠ .err) :
    v ≤ num.toNat ∧ it.left.length < r.length := by
  generalize hx : Except.ok (ret, num, it) = x at h
  cases h with
  | ub _ => cases hx
  | err _ _ =>
    cases hx
    exact absurd rfl hret
  | num _ _ hd hlt =>
    cases hx
    refine ⟨by rw [toNat_ofNat hlt]; omega, ?_⟩
    obtain ⟨g, c, hg, _⟩ := Varint.decode_eq_some hd
    simp only [hg, List.length_append, List.length_cons]
    omega

/-- A group with the top bit set hands the outcome on. -/
theorem Outcome.cons {done r : Bytes} {v k : Nat} {c : UInt8} (hk : k < 5) (hc : 128 ≤ c.toNat)
    {x : Res (HpkResult × UInt32 × HpkIter)}
    (h : Outcome (done ++ [c]) r (v + 128 ^ k * (c.toNat % 128)) (k + 1) x) :
    Outcome done (c :: r) v k x := by
  have weight (n : Nat) : v + 128 ^ k * (c.toNat % 128) + 128 ^ (k + 1) * n =
      v + 128 ^ k * (c.toNat % 128 + 128 * n) := by
    rw [Nat.pow_succ]
    ring
  cases h with
  | ub ho => exact .ub ((overlong_cons hk).mpr ⟨hc, ho⟩)
  | err ho hn =>
    refine .err (fun h => ho ((overlong_cons hk).mp h).2) fun n rest hd => ?_
    rw [Varint.decode_cons_ge r hc] at hd
    obtain ⟨⟨m, rest'⟩, hm, he⟩ := Option.map_eq_some_iff.mp hd
    cases he
    rw [← weight]
    exact hn m _ hm
  | @num g n rest ho hr hd hlt =>
    rw [weight] at hlt ⊢
    rw [List.append_assoc, List.singleton_append]
    have hd' : Varint.decode (c :: r) = some (c.toNat % 128 + 128 * n, rest) := by
      rw [Varint.decode_cons_ge r hc, hd]
      rfl
    exact .num (fun h => ho ((overlong_cons hk).mp h).2) (by rw [hr, List.cons_append]) hd' hlt

theorem numDecLoop_outcome {r : Bytes} : ∀ {done : Bytes} {b : UInt8} {result : UInt32} {k : Nat},
    k ≤ 5 → Outcome (done ++ [b]) r result.toNat k (numDecLoop done (b :: r) result (7 * k)) := by
  induction r with
  | nil =>
    intro done b result k hk
    refine .err ?_ (fun n rest h => by cases h)
    rintro ⟨g, rest, he, hne, _⟩
    exact hne (List.append_eq_nil_iff.mp he.symm).2
  | cons c r ih =>
    intro done b result k hk
    by_cases h5 : k = 5
    · -- the sixth group: the shift count is 35
      subst h5
      exact .ub (overlong_five.mpr ⟨by simp, result.toNat_lt⟩)
    · have hk : k < 5 := by omega
      rw [numDecLoop_step done r b c result hk]
      split
      · rename_i hov
        refine .err (fun h => ?_) fun n rest hd => ?_
        · have := ((overlong_cons hk).mp h).2.lt
          omega
        · have hle : c.toNat % 128 ≤ n := by
            by_cases hc : c.toNat < 128
            · rw [Varint.decode_cons_lt r hc] at hd
              cases hd
              omega
            · rw [Varint.decode_cons_ge r (by omega)] at hd
              obtain ⟨m, _, he⟩ := Option.map_eq_some_iff.mp hd
              cases he
              omega
          have := Nat.mul_le_mul_left (128 ^ k) hle
          omega
      · rename_i hlt
        have hv : (UInt32.ofNat (result.toNat + 128 ^ k * (c.toNat % 128))).toNat =
            result.toNat + 128 ^ k * (c.toNat % 128) := toNat_ofNat (by omega)
        split
        · rename_i hc
          have h := @ih (done ++ [b]) c
            (UInt32.ofNat (result.toNat + 128 ^ k * (c.toNat % 128))) (k + 1) (by omega)
          rw [hv] at h
          exact h.cons hk hc
        · rename_i hc
          have hc : c.toNat < 128 := by omega
          rw [Nat.mod_eq_of_lt hc] at hlt ⊢
          have happ : done ++ [b, c] = done ++ [b] ++ [c] := by simp
          rw [happ]
          exact .num (fun h => hc.not_ge ((overlong_cons hk).mp h).1) rfl
            (Varint.decode_cons_lt r hc) (by omega)

theorem numDecode_short {pfx : Nat} (h1 : 1 ≤ pfx) (h8 : pfx ≤ 8) (done r : Bytes) {b : UInt8}
    (hb : b.toNat % 2 ^ pfx < 2 ^ pfx - 1) :
    numDecode ⟨done, b :: r⟩ pfx = .ok ((HpkIter.mk (done ++ [b]) r).result,
      UInt32.ofNat (b.toNat % 2 ^ pfx), ⟨done ++ [b], r⟩) := by
  have hv := toNat_and_low h1 h8 b
  rw [numDecode, decide_eq_true (by omega : pfx ≠ 0), decide_eq_true h8]
  simp only [List.isEmpty_cons, Bool.not_false, check_true, ok_bind, hv, if_pos hb, pure_res]
  rw [← hv, UInt32.ofNat_toNat]

theorem numDecode_long {pfx : Nat} (h1 : 1 ≤ pfx) (h8 : pfx ≤ 8) (done r : Bytes) {b : UInt8}
    (hb : b.toNat % 2 ^ pfx = 2 ^ pfx - 1) :
    Outcome (done ++ [b]) r (2 ^ pfx - 1) 0 (numDecode ⟨done, b :: r⟩ pfx) := by
  have hv := toNat_and_low h1 h8 b
  rw [numDecode, decide_eq_true (by omega : pfx ≠ 0), decide_eq_true h8]
  simp only [List.isEmpty_cons, Bool.not_false, check_true, ok_bind, hv, hb, lt_irrefl, if_false]
  rw [← hb, ← hv]
  exact numDecLoop_outcome (by omega)

/-- The first byte has its prefix full, and the loop gets past the fifth group. -/
def OverlongInt (pfx : Nat) : Bytes → Prop
  | [] => False
  | b :: r => b.toNat % 2 ^ pfx = 2 ^ pfx - 1 ∧ Overlong (2 ^ pfx - 1) 0 r

/-- `num_decode` shifts by less than 32, and what it accepts has the value of the RFC. -/
def DecodesExactly (it : HpkIter) (pfx : Nat) : Prop :=
  ∃ ret num it', numDecode it pfx = .ok (ret, num, it') ∧
    (ret = .err ∨ ∃ v, rfcInt pfx it.left = some (v, it'.left) ∧ v < 2 ^ 32 ∧ num.toNat = v)

theorem num_decode_exact_iff (it : HpkIter) {pfx : Nat} (h1 : 1 ≤ pfx) (h8 : pfx ≤ 8)
    (hne : it.left ≠ []) : DecodesExactly it pfx ↔ ¬ OverlongInt pfx it.left := by
  obtain ⟨done, left⟩ := it
  obtain ⟨b, r, rfl⟩ := List.exists_cons_of_ne_nil hne
  have hpos : 0 < 2 ^ pfx := Nat.two_pow_pos pfx
  have hpow : 2 ^ pfx ≤ 2 ^ 8 := Nat.pow_le_pow_right (by omega) h8
  have hmod : b.toNat % 2 ^ pfx < 2 ^ pfx := Nat.mod_lt _ hpos
  by_cases hb : b.toNat % 2 ^ pfx < 2 ^ pfx - 1
  · refine iff_of_true ?_ fun h => absurd h.1 (by omega)
    refine ⟨_, _, _, numDecode_short h1 h8 done r hb, .inr ⟨_, if_pos hb, by omega, ?_⟩⟩
    exact toNat_ofNat (by omega)
  · have hfull : b.toNat % 2 ^ pfx = 2 ^ pfx - 1 := by omega
    have hout := numDecode_long h1 h8 done r hfull
    have hlong : OverlongInt pfx (b :: r) ↔ Overlong (2 ^ pfx - 1) 0 r := and_iff_right hfull
    rw [hlong, DecodesExactly]
    generalize numDecode ⟨done, b :: r⟩ pfx = x at hout ⊢
    cases hout with
    | ub ho =>
      refine iff_of_false ?_ (not_not_intro ho)
      rintro ⟨_, _, _, h, _⟩
      cases h
    | err ho _ => exact iff_of_true ⟨_, _, _, rfl, .inl rfl⟩ ho
    | num ho _ hd hlt =>
      rw [pow_zero, one_mul] at hlt ⊢
      refine iff_of_true ⟨_, _, _, rfl, .inr ⟨_, ?_, hlt, toNat_ofNat hlt⟩⟩ ho
      rw [rfcInt, if_neg hb, hd]
      rfl

theorem num_decode_exact_1337 : DecodesExactly ⟨[], [0x1f, 0x9a, 0x0a]⟩ 5 := by
  refine (num_decode_exact_iff _ (by omega) (by omega) (by simp)).mpr ?_
  rintro ⟨_, g, rest, he, _, hl, _⟩
  have := congrArg List.length he
  simp only [List.length_append, List.length_cons, List.length_nil] at this
  omega

/-- Five empty groups are accepted, and the sixth is shifted by 35. -/
theorem sixth_group_shift :
    ¬ DecodesExactly ⟨[], [0x7f, 0x80, 0x80, 0x80, 0x80, 0x80, 0x00]⟩ 7 := by
  rintro ⟨_, _, _, h, _⟩
  cases h

/-! ## Encoding -/

theorem numEncLoop_wrote {r : Bytes} :
    ∀ {done : Bytes} {num : UInt32} {ret : HpkResult} {it : HpkIter},
      numEncLoop done r num = .ok (ret, it) → ret ≠ .err →
      it.done = done ++ Varint.encode num.toNat ∧ ret = it.result ∧
        it.left.length + (Varint.encode num.toNat).length = r.length := by
  have hor (n : Nat) (h : n < 128) : UInt8.ofNat n ||| 0x80 = UInt8.ofNat (n + 128) := by
    rw [← UInt8.toNat_inj, UInt8.toNat_or, Varint.toNat_ofNat (by omega),
      Varint.toNat_ofNat (by omega), Nat.or_comm, Nat.add_comm]
    exact (Nat.two_pow_add_eq_or_of_lt (i := 7) h 1).symm
  have hlow (num : UInt32) : (num % 128).toUInt8 = UInt8.ofNat (num.toNat % 128) := by
    rw [← UInt8.toNat_inj, UInt32.toNat_toUInt8, Varint.toNat_ofNat (by omega), UInt32.toNat_mod]
    simp only [UInt32.reduceToNat]
    omega
  induction r with
  | nil =>
    intro done num ret it h hret
    cases h
    exact absurd rfl hret
  | cons b r ih =>
    intro done num ret it h hret
    have hdiv : (num / 128).toNat = num.toNat / 128 := by
      rw [UInt32.toNat_div]
      rfl
    have hmod : num.toNat % 128 < 128 := Nat.mod_lt _ (by omega)
    rw [numEncLoop, hlow, hor _ hmod] at h
    by_cases hz : num / 128 ≠ 0
    · rw [if_pos hz] at h
      rw [ne_eq, ← UInt32.toNat_inj, hdiv, UInt32.toNat_zero] at hz
      obtain ⟨hd, hr, hl⟩ := ih h hret
      rw [hdiv] at hd hl
      rw [Varint.encode_of_ge (n := num.toNat) (by omega)]
      refine ⟨by rw [hd, List.append_assoc, List.singleton_append], hr, ?_⟩
      rw [List.length_cons, List.length_cons]
      omega
    · rw [if_neg hz] at h
      rw [not_not, ← UInt32.toNat_inj, hdiv, UInt32.toNat_zero] at hz
      cases h
      have hlast : UInt8.ofNat (num.toNat % 128 + 128) &&& 127 = UInt8.ofNat num.toNat := by
        rw [← UInt8.toNat_inj, UInt8.toNat_and, Varint.toNat_ofNat (by omega),
          Varint.toNat_ofNat (by omega)]
        refine (Nat.and_two_pow_sub_one_eq_mod _ 7).trans ?_
        omega
      rw [Varint.encode_of_lt (by omega), hlast]
      exact ⟨rfl, rfl, rfl⟩

/-- The first byte: the bits above the prefix are kept, the prefix is `x`. -/
theorem toNat_headByte {pfx : Nat} (h8 : pfx ≤ 8) (b : UInt8) {x : UInt8}
    (hx : x.toNat < 2 ^ pfx) :
    (headByte b pfx x).toNat = 2 ^ pfx * (b.toNat / 2 ^ pfx) + x.toNat := by
  have hkeep : (b &&& UInt8.ofNat (0xff * 2 ^ pfx)).toNat = 2 ^ pfx * (b.toNat / 2 ^ pfx) := by
    rw [UInt8.toNat_and, UInt8.toNat_ofNat']
    refine Nat.eq_of_testBit_eq fun i => ?_
    have hb : 8 ≤ i → b.toNat.testBit i = false := fun hi =>
      Nat.testBit_lt_two_pow (Nat.lt_of_lt_of_le b.toNat_lt (Nat.pow_le_pow_right (by omega) hi))
    have h255 (j : Nat) : Nat.testBit 0xff j = decide (j < 8) := Nat.testBit_two_pow_sub_one 8 j
    rw [Nat.testBit_and, Nat.testBit_mod_two_pow, Nat.mul_comm, Nat.testBit_two_pow_mul,
      Nat.testBit_two_pow_mul, Nat.testBit_div_two_pow, h255]
    by_cases hi : 8 ≤ i
    · by_cases hp : pfx ≤ i <;> simp [hb hi, hp]
    · by_cases hp : pfx ≤ i
      · simp [hp]
        omega
      · simp [hp]
  rw [headByte, UInt8.toNat_or, hkeep]
  exact (Nat.two_pow_add_eq_or_of_lt hx _).symm

theorem headByte_mod {pfx : Nat} (h8 : pfx ≤ 8) (b : UInt8) {x : UInt8} (hx : x.toNat < 2 ^ pfx) :
    (headByte b pfx x).toNat % 2 ^ pfx = x.toNat := by
  rw [toNat_headByte h8 b hx, Nat.mul_add_mod, Nat.mod_eq_of_lt hx]

theorem headByte_div {pfx : Nat} (h8 : pfx ≤ 8) (b : UInt8) {x : UInt8} (hx : x.toNat < 2 ^ pfx) :
    (headByte b pfx x).toNat / 2 ^ pfx = b.toNat / 2 ^ pfx := by
  rw [toNat_headByte h8 b hx, Nat.mul_add_div (Nat.two_pow_pos pfx), Nat.div_eq_of_lt hx,
    Nat.add_zero]

/-- What `num_encode` writes over a first byte `b`. The largest value of the prefix goes into the
first byte alone. -/
def numBytes (pfx : Nat) (b : UInt8) (num : Nat) : Bytes :=
  if num ≤ 2 ^ pfx - 1 then [headByte b pfx (UInt8.ofNat num)]
  else headByte b pfx (UInt8.ofNat (2 ^ pfx - 1)) :: Varint.encode (num - (2 ^ pfx - 1))

theorem numEncode_wrote {pfx : Nat} {done r : Bytes} {b : UInt8} {num : UInt32} {ret : HpkResult}
    {it : HpkIter} (h : numEncode ⟨done, b :: r⟩ pfx num = .ok (ret, it)) (hret : ret ≠ .err) :
    it.done = done ++ numBytes pfx b num.toNat ∧ ret = it.result ∧
      it.left.length + (numBytes pfx b num.toNat).length = (b :: r).length := by
  unfold numEncode at h
  obtain ⟨_, h⟩ := check_bind_eq_ok.mp h
  obtain ⟨hle, h⟩ := check_bind_eq_ok.mp h
  obtain ⟨_, h⟩ := check_bind_eq_ok.mp h
  have hpos : 0 < 2 ^ pfx := Nat.two_pow_pos pfx
  have hpow : 2 ^ pfx ≤ 2 ^ 8 := Nat.pow_le_pow_right (by omega) (by simpa using hle)
  have hmax : (UInt8.ofNat (2 ^ pfx - 1)).toUInt32.toNat = 2 ^ pfx - 1 := by
    rw [UInt8.toNat_toUInt32, Varint.toNat_ofNat (by omega)]
  simp only [UInt32.le_iff_toNat_le, hmax] at h
  rw [numBytes]
  by_cases hn : num.toNat ≤ 2 ^ pfx - 1
  · rw [if_pos hn] at h ⊢
    cases h
    exact ⟨rfl, rfl, rfl⟩
  · rw [if_neg hn] at h ⊢
    split at h
    · cases h
      exact absurd rfl hret
    · obtain ⟨hd, hr, hl⟩ := numEncLoop_wrote h hret
      have hsub : (num - (UInt8.ofNat (2 ^ pfx - 1)).toUInt32).toNat =
          num.toNat - (2 ^ pfx - 1) := by
        rw [UInt32.toNat_sub_of_le _ _ (by rw [UInt32.le_iff_toNat_le]; omega), hmax]
      rw [hsub] at hd hl
      refine ⟨?_, hr, ?_⟩
      · rw [hd, List.append_assoc, List.singleton_append]
        rfl
      · rw [List.length_cons, List.length_cons]
        omega

/-- A full prefix and the groups of the rest of a number read back, whatever is behind them. -/
theorem numDecode_groups {pfx : Nat} (h1 : 1 ≤ pfx) (h8 : pfx ≤ 8) {x : UInt8}
    (hx : x.toNat % 2 ^ pfx = 2 ^ pfx - 1) {num : UInt32} (hn : 2 ^ pfx - 1 ≤ num.toNat)
    (done tail : Bytes) :
    ReadsNum done pfx num (x :: Varint.encode (num.toNat - (2 ^ pfx - 1))) tail := by
  have hlt := num.toNat_lt
  have hdec := Varint.decode_encode (num.toNat - (2 ^ pfx - 1)) tail
  have hout := numDecode_long h1 h8 done
    (Varint.encode (num.toNat - (2 ^ pfx - 1)) ++ tail) hx
  have hval : 2 ^ pfx - 1 + 128 ^ 0 * (num.toNat - (2 ^ pfx - 1)) = num.toNat := by omega
  rw [ReadsNum, List.cons_append]
  generalize numDecode _ pfx = y at hout ⊢
  cases hout with
  | ub ho =>
    -- five groups hold every 32-bit number, so no sixth is written
    obtain ⟨g, rest, hr, _, hl, hg, _⟩ := ho
    obtain ⟨g', c, hr', hg', hc, _⟩ := Varint.decode_eq_some hdec
    have hlen : (Varint.encode (num.toNat - (2 ^ pfx - 1))).length ≤ 4 + 1 :=
      Varint.length_encode_le (by omega)
    have hgl : g'.length < g.length := by
      have := congrArg List.length hr'
      simp only [List.length_append, List.length_cons] at this
      omega
    have hmem : c ∈ g := by
      have hget := congrArg (fun l : Bytes => l[g'.length]?) (hr.symm.trans hr')
      simp only [List.getElem?_append_left hgl, List.getElem?_append_right le_rfl, Nat.sub_self,
        List.getElem?_cons_zero] at hget
      exact List.mem_of_getElem? hget
    exact absurd (hg c hmem) (by omega)
  | err _ hn' => exact absurd (hn' _ _ hdec) (by omega)
  | @num g n rest _ hr hd _ =>
    rw [hdec] at hd
    cases hd
    have hg : g = Varint.encode (num.toNat - (2 ^ pfx - 1)) := List.append_cancel_right hr.symm
    rw [hval, UInt32.ofNat_toNat, hg, List.append_assoc, List.singleton_append]

/-- A number other than the largest of the prefix reads back. -/
theorem numDecode_numBytes {pfx : Nat} (h1 : 1 ≤ pfx) (h8 : pfx ≤ 8) (b : UInt8) {num : UInt32}
    (hn : num.toNat ≠ 2 ^ pfx - 1) (done tail : Bytes) :
    ReadsNum done pfx num (numBytes pfx b num.toNat) tail := by
  have hpos : 0 < 2 ^ pfx := Nat.two_pow_pos pfx
  have hpow : 2 ^ pfx ≤ 2 ^ 8 := Nat.pow_le_pow_right (by omega) h8
  rw [numBytes]
  by_cases hle : num.toNat ≤ 2 ^ pfx - 1
  · have hx : (UInt8.ofNat num.toNat).toNat = num.toNat := Varint.toNat_ofNat (by omega)
    have hm := headByte_mod h8 b (x := UInt8.ofNat num.toNat) (by omega)
    rw [if_pos hle, ReadsNum, List.singleton_append,
      numDecode_short h1 h8 done tail (by omega), hm, hx, UInt32.ofNat_toNat]
  · have hx : (UInt8.ofNat (2 ^ pfx - 1)).toNat = 2 ^ pfx - 1 := Varint.toNat_ofNat (by omega)
    have hm := headByte_mod h8 b (x := UInt8.ofNat (2 ^ pfx - 1)) (by omega)
    rw [if_neg hle]
    exact numDecode_groups h1 h8 (hm.trans hx) (by omega) done tail

/-- The bytes that `num_encode` has put between `done` and the cursor of `it` keep the bits above
the prefix, and `num_decode` reads `num` from them with the cursor then on `tail`. -/
def ReadBack (pfx : Nat) (b : UInt8) (num : UInt32) (done : Bytes) (it : HpkIter)
    (pre tail : Bytes) : Prop :=
  ∃ x w, it.done = done ++ x :: w ∧ x.toNat / 2 ^ pfx = b.toNat / 2 ^ pfx ∧
    numDecode ⟨pre, x :: w ++ tail⟩ pfx = .ok (.more, num, ⟨pre ++ x :: w, tail⟩)

theorem num_reads_back_iff {pfx : Nat} (h1 : 1 ≤ pfx) (h8 : pfx ≤ 8) {done r : Bytes} {b : UInt8}
    {num : UInt32} {ret : HpkResult} {it : HpkIter}
    (henc : numEncode ⟨done, b :: r⟩ pfx num = .ok (ret, it)) (hret : ret ≠ .err)
    (pre : Bytes) {tail : Bytes} (htail : tail ≠ []) :
    ReadBack pfx b num done it pre tail ↔ num.toNat ≠ 2 ^ pfx - 1 := by
  obtain ⟨hd, _, _⟩ := numEncode_wrote henc hret
  have hpos : 0 < 2 ^ pfx := Nat.two_pow_pos pfx
  have hpow : 2 ^ pfx ≤ 2 ^ 8 := Nat.pow_le_pow_right (by omega) h8
  constructor
  · rintro ⟨x, w, hw, _, hdec⟩ hn
    -- the largest value of the prefix is one byte, whose reader goes on to the next one
    have hx : (UInt8.ofNat (2 ^ pfx - 1)).toNat = 2 ^ pfx - 1 := Varint.toNat_ofNat (by omega)
    have hm := headByte_mod h8 b (x := UInt8.ofNat (2 ^ pfx - 1)) (by omega)
    rw [hd, numBytes, if_pos (by omega), hn] at hw
    cases List.append_cancel_left hw
    have hout := numDecode_long h1 h8 pre tail (hm.trans hx)
    rw [List.singleton_append] at hdec
    rw [hdec] at hout
    exact absurd (hout.accepted (by simp)).2 (lt_irrefl _)
  · intro hn
    have hrd := numDecode_numBytes h1 h8 b hn pre tail
    obtain ⟨x, w, hw, hx⟩ : ∃ x w, numBytes pfx b num.toNat = x :: w ∧
        x.toNat / 2 ^ pfx = b.toNat / 2 ^ pfx := by
      rw [numBytes]
      split
      · refine ⟨_, _, rfl, headByte_div h8 b ?_⟩
        rw [Varint.toNat_ofNat (by omega)]
        omega
      · refine ⟨_, _, rfl, headByte_div h8 b ?_⟩
        rw [Varint.toNat_ofNat (by omega)]
        omega
    rw [hw] at hd hrd
    rw [ReadsNum, result_more _ htail] at hrd
    exact ⟨x, w, hd, hx, hrd⟩

theorem num_reads_back_1337 :
    ReadBack 5 0xe0 1337 [] ⟨[0xff, 0x9a, 0x0a], [0]⟩ [] [0x55] :=
  have henc : numEncode ⟨[], [0xe0, 0, 0, 0]⟩ 5 1337 = .ok (.more, ⟨[0xff, 0x9a, 0x0a], [0]⟩) := rfl
  (num_reads_back_iff (by omega) (by omega) henc (by simp) [] (by simp)).mpr (by simp)

/-- 127 in a prefix of seven bits is written as one byte, and read together with the next. -/
theorem prefix_maximum_misread :
    numEncode ⟨[], [0, 0]⟩ 7 127 = .ok (.more, ⟨[0x7f], [0]⟩) ∧
      numDecode ⟨[], [0x7f, 0x05]⟩ 7 = .ok (.done, 132, ⟨[0x7f, 0x05], []⟩) ∧
      ¬ ReadBack 7 0 127 [] ⟨[0x7f], [0]⟩ [] [0x05] := by
  refine ⟨rfl, rfl, ?_⟩
  rintro ⟨x, w, hw, _, h⟩
  cases hw
  cases h

end Hpack
end VTest
