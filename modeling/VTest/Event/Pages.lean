import VTest.Lib.HeapOrder

/-!
# VTest.Event.Pages

The tree of the binary heap (`vbh.c`). It is laid out for virtual memory: a page of `page_size`
places holds a subtree, so that a walk to the root touches one page for every few levels. On every
page but the first, the first two places are the roots of two subtrees that share a parent, and
each of them has one child only, two places on. A place of the bottom row of a page has the first
two places of another page as its children.

A page has `2 ^ s` places, where `s` is `page_shift`. Indices are `unsigned`. No sum of `parent`
and `child` wraps but the one that `child` looks at, and there both children become `UINT_MAX`.
`u & ~m` is `u - (u &&& m)` on numbers.

* `parent_lt`: a place comes behind its parent.
* `mem_child_iff`: `child` gives the places with the parent `u`, and no others.
-/

namespace VTest
namespace Event

def uintMax : Nat := 2 ^ 32 - 1

def pageSize (s : Nat) : Nat := 2 ^ s

def pageMask (s : Nat) : Nat := pageSize s - 1

/-- The assertion that `u` is not `UINT_MAX` stands at the call. -/
def parent (s u : Nat) : Nat :=
  let po := u &&& pageMask s
  if u < pageSize s ∨ po > 3 then (u - po) ||| (po >>> 1)
  else if po < 2 then
    let v := (u - pageSize s) >>> s
    let v := v + (v - (v &&& (pageMask s >>> 1)))
    v ||| (pageSize s / 2)
  else u - 2

def child (s u : Nat) : Nat × Nat :=
  if u > pageMask s ∧ u &&& (pageMask s - 1) = 0 then
    -- the first two places of a page, except on the first page
    (u + 2, u + 2)
  else if u &&& (pageSize s >>> 1) ≠ 0 then
    -- the bottom row
    let a := ((u - (u &&& pageMask s)) >>> 1 ||| (u &&& (pageMask s >>> 1))) + 1
    let uu := a <<< s
    if uu % 2 ^ 32 = uu then (uu, uu + 1) else (uintMax, uintMax)
  else
    (u + (u &&& pageMask s), u + (u &&& pageMask s) + 1)

section Arithmetic

/-! A place is written `p * (2 * h) + o`: the page, and the place on a page of `2 * h`. -/

variable {t : Nat}

theorem pageSize_succ (t : Nat) : pageSize (t + 1) = 2 * 2 ^ t := by
  rw [pageSize, Nat.pow_succ, Nat.mul_comm]

theorem pageMask_half (t : Nat) : pageMask (t + 1) >>> 1 = 2 ^ t - 1 := by
  have := Nat.two_pow_pos t
  rw [pageMask, pageSize_succ, Nat.shiftRight_eq_div_pow]
  omega

theorem and_pageMask {p o : Nat} (ho : o < 2 * 2 ^ t) :
    (p * (2 * 2 ^ t) + o) &&& pageMask (t + 1) = o := by
  rw [pageMask, pageSize, Nat.and_two_pow_sub_one_eq_mod, Nat.pow_succ, Nat.mul_comm (2 ^ t) 2,
    Nat.mul_add_mod_self_right, Nat.mod_eq_of_lt ho]

theorem or_eq_add {k x : Nat} (p : Nat) (hx : x < 2 ^ k) : p * 2 ^ k ||| x = p * 2 ^ k + x := by
  rw [Nat.mul_comm, Nat.two_pow_add_eq_or_of_lt hx]

theorem or_half {r : Nat} (q : Nat) (hr : r < 2 ^ t) :
    (q * (2 * 2 ^ t) + r) ||| 2 ^ t = q * (2 * 2 ^ t) + 2 ^ t + r := by
  have h1 : (2 * q) * 2 ^ t ||| r = (2 * q) * 2 ^ t + r := or_eq_add _ hr
  have h2 : (2 * q + 1) * 2 ^ t ||| r = (2 * q + 1) * 2 ^ t + r := or_eq_add _ hr
  have h3 : q * 2 ^ (t + 1) ||| 2 ^ t = q * 2 ^ (t + 1) + 2 ^ t :=
    or_eq_add _ (Nat.pow_lt_pow_right (by omega) (by omega))
  calc (q * (2 * 2 ^ t) + r) ||| 2 ^ t
      = ((2 * q) * 2 ^ t ||| r) ||| 2 ^ t := by rw [h1]; ring_nf
    _ = (q * 2 ^ (t + 1) ||| 2 ^ t) ||| r := by
        rw [Nat.or_assoc, Nat.or_comm r, ← Nat.or_assoc]
        ring_nf
    _ = (2 * q + 1) * 2 ^ t ||| r := by rw [h3]; ring_nf
    _ = q * (2 * 2 ^ t) + 2 ^ t + r := by rw [h2]; ring_nf

/-- Inside a page, and on the first page. -/
theorem parent_inner {p o : Nat} (ho : o < 2 * 2 ^ t) (h : p = 0 ∨ 3 < o) :
    parent (t + 1) (p * (2 * 2 ^ t) + o) = p * (2 * 2 ^ t) + o / 2 := by
  have hcond : p * (2 * 2 ^ t) + o < pageSize (t + 1) ∨ o > 3 := by
    rcases h with rfl | h
    · left
      rw [pageSize_succ]
      omega
    · exact Or.inr h
  simp only [parent, and_pageMask ho, if_pos hcond]
  have hsub : p * (2 * 2 ^ t) + o - o = p * 2 ^ (t + 1) := by
    rw [Nat.pow_succ, Nat.mul_comm (2 ^ t) 2]
    omega
  have hlt : o / 2 < 2 ^ (t + 1) := by
    rw [Nat.pow_succ]
    omega
  rw [hsub, Nat.shiftRight_eq_div_pow, Nat.pow_one, or_eq_add _ hlt, Nat.pow_succ,
    Nat.mul_comm (2 ^ t) 2]

/-- The first two places of a page are below the bottom row of another. -/
theorem parent_first {q r o : Nat} (ho : o < 2) (hr : r < 2 ^ t) :
    parent (t + 1) ((q * 2 ^ t + r + 1) * (2 * 2 ^ t) + o) = q * (2 * 2 ^ t) + (2 ^ t + r) := by
  have hpos := Nat.two_pow_pos t
  have ho' : o < 2 * 2 ^ t := by omega
  have hbig : ¬((q * 2 ^ t + r + 1) * (2 * 2 ^ t) + o < pageSize (t + 1) ∨ o > 3) := by
    have := Nat.mul_le_mul_right (2 * 2 ^ t) (show 1 ≤ q * 2 ^ t + r + 1 by omega)
    rw [pageSize_succ]
    omega
  simp only [parent, and_pageMask ho', if_neg hbig, if_pos ho]
  have hv : ((q * 2 ^ t + r + 1) * (2 * 2 ^ t) + o - pageSize (t + 1)) >>> (t + 1) =
      q * 2 ^ t + r := by
    rw [pageSize_succ, Nat.shiftRight_eq_div_pow, Nat.pow_succ, Nat.mul_comm (2 ^ t) 2,
      show (q * 2 ^ t + r + 1) * (2 * 2 ^ t) + o - 2 * 2 ^ t =
        o + (2 * 2 ^ t) * (q * 2 ^ t + r) by
          rw [Nat.add_mul, Nat.one_mul, Nat.mul_comm (2 * 2 ^ t)]
          omega,
      Nat.add_mul_div_left _ _ (by omega), Nat.div_eq_of_lt ho', Nat.zero_add]
  have hand : (q * 2 ^ t + r) &&& (2 ^ t - 1) = r := by
    rw [Nat.and_two_pow_sub_one_eq_mod, Nat.mul_add_mod_self_right, Nat.mod_eq_of_lt hr]
  have hhalf : pageSize (t + 1) / 2 = 2 ^ t := by
    rw [pageSize_succ]
    omega
  rw [hv, pageMask_half, hand, hhalf, ← Nat.add_assoc, ← or_half q hr]
  congr 1
  have hq : q * (2 * 2 ^ t) = 2 * (q * 2 ^ t) := by ring
  omega

theorem parent_second {p o : Nat} (ht : 1 ≤ t) (hp : 1 ≤ p) (ho : o < 2) :
    parent (t + 1) (p * (2 * 2 ^ t) + (o + 2)) = p * (2 * 2 ^ t) + o := by
  have hpos : 2 ≤ 2 ^ t := by
    calc 2 = 2 ^ 1 := rfl
      _ ≤ 2 ^ t := Nat.pow_le_pow_right (by omega) ht
  have hbig : ¬(p * (2 * 2 ^ t) + (o + 2) < pageSize (t + 1) ∨ o + 2 > 3) := by
    have := Nat.mul_le_mul_right (2 * 2 ^ t) hp
    rw [pageSize_succ]
    omega
  simp only [parent, and_pageMask (show o + 2 < 2 * 2 ^ t by omega), if_neg hbig]
  rw [if_neg (by omega)]
  omega

/-- Which of the three a place is. -/
theorem place_cases (t v : Nat) (hv : 1 < v) :
    (∃ p o, v = p * (2 * 2 ^ t) + o ∧ o < 2 * 2 ^ t ∧ (p = 0 ∧ 1 < o ∨ 3 < o)) ∨
    (∃ q r o, v = (q * 2 ^ t + r + 1) * (2 * 2 ^ t) + o ∧ o < 2 ∧ r < 2 ^ t) ∨
    (∃ p o, v = p * (2 * 2 ^ t) + (o + 2) ∧ 1 ≤ p ∧ o < 2) := by
  have hpos := Nat.two_pow_pos t
  have hdm := Nat.div_add_mod' v (2 * 2 ^ t)
  have hmod := Nat.mod_lt v (show 0 < 2 * 2 ^ t by omega)
  generalize v / (2 * 2 ^ t) = p at hdm
  generalize v % (2 * 2 ^ t) = o at hdm hmod
  by_cases hp : p = 0
  · subst hp
    refine Or.inl ⟨0, o, hdm.symm, hmod, Or.inl ⟨rfl, ?_⟩⟩
    omega
  by_cases ho3 : 3 < o
  · exact Or.inl ⟨p, o, hdm.symm, hmod, Or.inr ho3⟩
  by_cases ho2 : o < 2
  · refine Or.inr (Or.inl ⟨(p - 1) / 2 ^ t, (p - 1) % 2 ^ t, o, ?_, ho2, Nat.mod_lt _ hpos⟩)
    have := Nat.div_add_mod' (p - 1) (2 ^ t)
    rw [this, show p - 1 + 1 = p by omega, hdm]
  · refine Or.inr (Or.inr ⟨p, o - 2, ?_, by omega, by omega⟩)
    rw [← hdm]
    omega

theorem child_first {p o : Nat} (hp : 1 ≤ p) (ho : o < 2) :
    child (t + 1) (p * (2 * 2 ^ t) + o) =
      (p * (2 * 2 ^ t) + (o + 2), p * (2 * 2 ^ t) + (o + 2)) := by
  have hpos := Nat.two_pow_pos t
  have hand : (p * (2 * 2 ^ t) + o) &&& (pageMask (t + 1) - 1) = 0 := by
    have hmask : pageMask (t + 1) - 1 = 2 * (2 ^ t - 1) := by
      rw [pageMask, pageSize_succ]
      omega
    apply Nat.eq_of_testBit_eq
    intro i
    rw [hmask, Nat.testBit_and, Nat.zero_testBit]
    cases i with
    | zero => simp
    | succ i =>
      rw [Nat.testBit_succ, Nat.testBit_succ,
        show (p * (2 * 2 ^ t) + o) / 2 = 2 ^ t * p by
          rw [show p * (2 * 2 ^ t) = 2 * (2 ^ t * p) by ring]
          omega,
        show 2 * (2 ^ t - 1) / 2 = 2 ^ t - 1 by omega, Nat.testBit_two_pow_sub_one,
        Nat.testBit_two_pow_mul]
      by_cases hi : t ≤ i <;> simp [hi]
  have hgt : p * (2 * 2 ^ t) + o > pageMask (t + 1) := by
    have := Nat.mul_le_mul_right (2 * 2 ^ t) hp
    rw [pageMask, pageSize_succ]
    omega
  rw [child, if_pos ⟨hgt, hand⟩, Nat.add_assoc]

theorem and_half_eq {p o : Nat} (ho : o < 2 * 2 ^ t) :
    (p * (2 * 2 ^ t) + o) &&& (pageSize (t + 1) >>> 1) = if o < 2 ^ t then 0 else 2 ^ t := by
  have hhalf : pageSize (t + 1) >>> 1 = 2 ^ t := by
    rw [pageSize_succ, Nat.shiftRight_eq_div_pow]
    omega
  rw [hhalf, Nat.and_two_pow]
  have hbit : (p * (2 * 2 ^ t) + o).testBit t = decide (¬o < 2 ^ t) := by
    have hpow : 2 ^ (t + 1) = 2 * 2 ^ t := by
      rw [Nat.pow_succ, Nat.mul_comm]
    rw [Nat.mul_comm, ← hpow, Nat.testBit_two_pow_mul_add _ (by omega), if_pos (by omega)]
    by_cases h : o < 2 ^ t
    · rw [Nat.testBit_lt_two_pow h]
      simp [h]
    · rw [Nat.testBit_of_two_pow_le_and_two_pow_add_one_gt (by omega) (by omega)]
      simp [h]
  rw [hbit]
  by_cases h : o < 2 ^ t <;> simp [h]

theorem and_mask_pred_ne {p o : Nat} (h2 : 2 ≤ o) (ho : o < 2 * 2 ^ t) :
    (p * (2 * 2 ^ t) + o) &&& (pageMask (t + 1) - 1) ≠ 0 := by
  -- some bit of `o` above the lowest is set
  intro hzero
  have hpow : 2 ^ (t + 1) = 2 * 2 ^ t := by
    rw [Nat.pow_succ, Nat.mul_comm]
  have hmask : pageMask (t + 1) - 1 = 2 * (2 ^ t - 1) := by
    rw [pageMask, pageSize_succ]
    omega
  have hhalf : o / 2 = 0 := by
    apply Nat.eq_of_testBit_eq
    intro i
    have hbit := congrArg (fun n => n.testBit (i + 1)) hzero
    simp only [hmask, Nat.testBit_and, Nat.zero_testBit] at hbit
    rw [Nat.testBit_succ (2 * (2 ^ t - 1)), show 2 * (2 ^ t - 1) / 2 = 2 ^ t - 1 by omega,
      Nat.testBit_two_pow_sub_one, Nat.mul_comm, ← hpow,
      Nat.testBit_two_pow_mul_add _ (by omega)] at hbit
    rw [Nat.zero_testBit, ← Nat.testBit_succ]
    by_cases hi : i < t
    · rw [if_pos (by omega)] at hbit
      simpa [hi] using hbit
    · exact Nat.testBit_lt_two_pow (Nat.lt_of_lt_of_le ho
        (by rw [← hpow]; exact Nat.pow_le_pow_right (by omega) (by omega)))
  omega

/-- The rest of a page that is not its bottom row. -/
theorem child_inner {p o : Nat} (ho : o < 2 ^ t) (h : p = 0 ∨ 2 ≤ o) :
    child (t + 1) (p * (2 * 2 ^ t) + o) =
      (p * (2 * 2 ^ t) + 2 * o, p * (2 * 2 ^ t) + 2 * o + 1) := by
  have ho' : o < 2 * 2 ^ t := by omega
  have hfirst : ¬(p * (2 * 2 ^ t) + o > pageMask (t + 1) ∧
      (p * (2 * 2 ^ t) + o) &&& (pageMask (t + 1) - 1) = 0) := by
    rintro ⟨hgt, hand⟩
    rcases h with rfl | h
    · rw [pageMask, pageSize_succ] at hgt
      omega
    · exact and_mask_pred_ne h ho' hand
  have hbottom : ¬(p * (2 * 2 ^ t) + o) &&& (pageSize (t + 1) >>> 1) ≠ 0 := by
    rw [and_half_eq ho', if_pos ho]
    simp
  rw [child, if_neg hfirst, if_neg hbottom, and_pageMask ho', Prod.mk.injEq]
  omega

/-- The bottom row. -/
theorem child_bottom {q r : Nat} (ht : 1 ≤ t) (hr : r < 2 ^ t) :
    child (t + 1) (q * (2 * 2 ^ t) + (2 ^ t + r)) =
      if (q * 2 ^ t + r + 1) * (2 * 2 ^ t) < 2 ^ 32 then
        ((q * 2 ^ t + r + 1) * (2 * 2 ^ t), (q * 2 ^ t + r + 1) * (2 * 2 ^ t) + 1)
      else (uintMax, uintMax) := by
  have ho : 2 ^ t + r < 2 * 2 ^ t := by omega
  have h2 : 2 ≤ 2 ^ t := by
    calc 2 = 2 ^ 1 := rfl
      _ ≤ 2 ^ t := Nat.pow_le_pow_right (by omega) ht
  have hpow : 2 ^ (t + 1) = 2 * 2 ^ t := by
    rw [Nat.pow_succ, Nat.mul_comm]
  have hfirst : ¬(q * (2 * 2 ^ t) + (2 ^ t + r) > pageMask (t + 1) ∧
      (q * (2 * 2 ^ t) + (2 ^ t + r)) &&& (pageMask (t + 1) - 1) = 0) :=
    fun h => and_mask_pred_ne (by omega) ho h.2
  have hbottom : (q * (2 * 2 ^ t) + (2 ^ t + r)) &&& (pageSize (t + 1) >>> 1) ≠ 0 := by
    rw [and_half_eq ho, if_neg (by omega)]
    omega
  have ha : ((q * (2 * 2 ^ t) + (2 ^ t + r) - (2 ^ t + r)) >>> 1 |||
      ((q * (2 * 2 ^ t) + (2 ^ t + r)) &&& (pageMask (t + 1) >>> 1))) + 1 =
      q * 2 ^ t + r + 1 := by
    have hlow : (q * (2 * 2 ^ t) + (2 ^ t + r)) &&& (2 ^ t - 1) = r := by
      rw [Nat.and_two_pow_sub_one_eq_mod,
        show q * (2 * 2 ^ t) + (2 ^ t + r) = (2 * q + 1) * 2 ^ t + r by ring,
        Nat.mul_add_mod_self_right, Nat.mod_eq_of_lt hr]
    rw [pageMask_half, hlow, Nat.shiftRight_eq_div_pow,
      show (q * (2 * 2 ^ t) + (2 ^ t + r) - (2 ^ t + r)) / 2 ^ 1 = q * 2 ^ t by
        rw [show q * (2 * 2 ^ t) = 2 * (q * 2 ^ t) by ring]
        omega,
      or_eq_add _ hr]
  simp only [child, if_neg hfirst, if_pos hbottom, and_pageMask ho, ha]
  rw [Nat.shiftLeft_eq, hpow]
  by_cases hlt : (q * 2 ^ t + r + 1) * (2 * 2 ^ t) < 2 ^ 32
  · rw [if_pos (Nat.mod_eq_of_lt hlt), if_pos hlt]
  · rw [if_neg, if_neg hlt]
    have := Nat.mod_lt ((q * 2 ^ t + r + 1) * (2 * 2 ^ t)) (show 0 < 2 ^ 32 by omega)
    omega

end Arithmetic

/-- A page has at least four places. -/
theorem parent_lt {s u : Nat} (hs : 2 ≤ s) (hu : 1 < u) : 1 ≤ parent s u ∧ parent s u < u := by
  obtain ⟨t, rfl⟩ : ∃ t, s = t + 1 := ⟨s - 1, by omega⟩
  have h2 : 2 ≤ 2 ^ t := by
    calc 2 = 2 ^ 1 := rfl
      _ ≤ 2 ^ t := Nat.pow_le_pow_right (by omega) (by omega)
  rcases place_cases t u hu with ⟨p, o, rfl, ho, h⟩ | ⟨q, r, o, rfl, ho, hr⟩ | ⟨p, o, rfl, hp, ho⟩
  · rw [parent_inner ho (h.imp And.left id)]
    omega
  · rw [parent_first ho hr]
    have hq : q * (2 * 2 ^ t) ≤ q * 2 ^ t * (2 * 2 ^ t) :=
      Nat.mul_le_mul_right _ (Nat.le_mul_of_pos_right q (by omega))
    have hle : r ≤ r * (2 * 2 ^ t) := Nat.le_mul_of_pos_right r (by omega)
    rw [Nat.add_mul, Nat.add_mul, Nat.one_mul]
    omega
  · rw [parent_second (by omega) hp ho]
    have := Nat.mul_le_mul_right (2 * 2 ^ t) hp
    omega

/-- The tree of a heap whose pages have `2 ^ s` places. -/
def pageTree (s : Nat) (hs : 2 ≤ s) : IndexTree where
  parent := parent s
  pos _ hu := (parent_lt hs hu).1
  lt _ hu := (parent_lt hs hu).2

theorem mem_child_of_parent {s v : Nat} (hs : 2 ≤ s) (hv : 1 < v) (hmax : v < uintMax) :
    v = (child s (parent s v)).1 ∨ v = (child s (parent s v)).2 := by
  obtain ⟨t, rfl⟩ : ∃ t, s = t + 1 := ⟨s - 1, by omega⟩
  rcases place_cases t v hv with ⟨p, o, rfl, ho, h⟩ | ⟨q, r, o, rfl, ho, hr⟩ | ⟨p, o, rfl, hp, ho⟩
  · rw [parent_inner ho (h.imp And.left id), child_inner (by omega) (by omega)]
    dsimp only
    omega
  · have hlt : (q * 2 ^ t + r + 1) * (2 * 2 ^ t) < 2 ^ 32 := by
      rw [uintMax] at hmax
      omega
    rw [parent_first ho hr, child_bottom (by omega) hr, if_pos hlt]
    dsimp only
    omega
  · rw [parent_second (by omega) hp ho, child_first hp ho]
    exact Or.inl rfl

theorem parent_of_mem_child {s u v : Nat} (hs : 2 ≤ s) (hu : 1 ≤ u) (hmax : v < uintMax)
    (hv : v = (child s u).1 ∨ v = (child s u).2) : 1 < v ∧ parent s v = u := by
  obtain ⟨t, rfl⟩ : ∃ t, s = t + 1 := ⟨s - 1, by omega⟩
  have hpos := Nat.two_pow_pos t
  have h2 : 2 ≤ 2 ^ t := by
    calc 2 = 2 ^ 1 := rfl
      _ ≤ 2 ^ t := Nat.pow_le_pow_right (by omega) (by omega)
  have hdm := Nat.div_add_mod' u (2 * 2 ^ t)
  have hmod := Nat.mod_lt u (show 0 < 2 * 2 ^ t by omega)
  generalize u / (2 * 2 ^ t) = p at hdm
  generalize u % (2 * 2 ^ t) = o at hdm hmod
  subst hdm
  have hle : 1 ≤ p → 2 * 2 ^ t ≤ p * (2 * 2 ^ t) := Nat.le_mul_of_pos_left _
  by_cases hfirst : 1 ≤ p ∧ o < 2
  · rw [child_first hfirst.1 hfirst.2, or_self] at hv
    subst hv
    exact ⟨by omega, parent_second (by omega) hfirst.1 hfirst.2⟩
  by_cases hin : o < 2 ^ t
  · have hcase : p = 0 ∨ 2 ≤ o := by omega
    rw [child_inner hin hcase] at hv
    dsimp only at hv
    obtain ⟨b, hb, rfl⟩ : ∃ b, b < 2 ∧ v = p * (2 * 2 ^ t) + (2 * o + b) :=
      ⟨v - (p * (2 * 2 ^ t) + 2 * o), by omega, by omega⟩
    rw [parent_inner (by omega) (by omega)]
    rcases hcase with rfl | hcase <;> omega
  · obtain ⟨r, rfl⟩ : ∃ r, o = 2 ^ t + r := ⟨o - 2 ^ t, by omega⟩
    have hr : r < 2 ^ t := by omega
    rw [child_bottom (by omega) hr] at hv
    have hlt : (p * 2 ^ t + r + 1) * (2 * 2 ^ t) < 2 ^ 32 := by
      by_contra hge
      rw [if_neg hge, or_self] at hv
      omega
    rw [if_pos hlt] at hv
    dsimp only at hv
    obtain ⟨b, hb, rfl⟩ : ∃ b, b < 2 ∧ v = (p * 2 ^ t + r + 1) * (2 * 2 ^ t) + b :=
      ⟨v - (p * 2 ^ t + r + 1) * (2 * 2 ^ t), by omega, by omega⟩
    rw [parent_first hb hr]
    have := Nat.le_mul_of_pos_left (2 * 2 ^ t) (show 0 < p * 2 ^ t + r + 1 by omega)
    exact ⟨by omega, rfl⟩

/-- Of the places that a heap can have, `child` gives those with the parent `u`. -/
theorem mem_child_iff {s u v : Nat} (hs : 2 ≤ s) (hu : 1 ≤ u) (hmax : v < uintMax) :
    v = (child s u).1 ∨ v = (child s u).2 ↔ 1 < v ∧ parent s v = u := by
  constructor
  · exact parent_of_mem_child hs hu hmax
  · rintro ⟨hv, rfl⟩
    exact mem_child_of_parent hs hv hmax

theorem child_le {s u : Nat} (hs : 2 ≤ s) (hu : 1 ≤ u) :
    0 < (child s u).1 ∧ (child s u).1 ≤ (child s u).2 := by
  obtain ⟨t, rfl⟩ : ∃ t, s = t + 1 := ⟨s - 1, by omega⟩
  have hpos := Nat.two_pow_pos t
  have hdm := Nat.div_add_mod' u (2 * 2 ^ t)
  have hmod := Nat.mod_lt u (show 0 < 2 * 2 ^ t by omega)
  generalize u / (2 * 2 ^ t) = p at hdm
  generalize u % (2 * 2 ^ t) = o at hdm hmod
  subst hdm
  by_cases hfirst : 1 ≤ p ∧ o < 2
  · rw [child_first hfirst.1 hfirst.2]
    exact ⟨by dsimp only; omega, le_rfl⟩
  by_cases hin : o < 2 ^ t
  · rw [child_inner hin (by omega)]
    exact ⟨by dsimp only; omega, by dsimp only; omega⟩
  · obtain ⟨r, rfl⟩ : ∃ r, o = 2 ^ t + r := ⟨o - 2 ^ t, by omega⟩
    rw [child_bottom (by omega) (by omega)]
    have := Nat.le_mul_of_pos_left (2 * 2 ^ t) (show 0 < p * 2 ^ t + r + 1 by omega)
    split
    · exact ⟨by dsimp only; omega, by dsimp only; omega⟩
    · exact ⟨by decide, le_rfl⟩

/-- The places form a tree whose walks to the root change the page seldom: only from one of the
first two places of a page, and from page `p` to page `(p - 1) / (page_size / 2)`. -/
theorem child_parent_tree (s v : Nat) (hs : 2 ≤ s) (hv : 1 < v) (hmax : v < uintMax) :
    1 ≤ parent s v ∧ parent s v < v ∧
      (∀ u, 1 ≤ u → (v = (child s u).1 ∨ v = (child s u).2 ↔ parent s v = u)) ∧
      (parent s v / pageSize s ≠ v / pageSize s →
        v % pageSize s < 2 ∧
          parent s v / pageSize s = (v / pageSize s - 1) / (pageSize s / 2)) := by
  refine ⟨(parent_lt hs hv).1, (parent_lt hs hv).2, fun u hu => ?_, fun hpage => ?_⟩
  · rw [mem_child_iff hs hu hmax]
    exact and_iff_right hv
  obtain ⟨t, rfl⟩ : ∃ t, s = t + 1 := ⟨s - 1, by omega⟩
  have hpos := Nat.two_pow_pos t
  have hdiv : ∀ p o, o < 2 * 2 ^ t → (p * (2 * 2 ^ t) + o) / (2 * 2 ^ t) = p := by
    intro p o ho
    rw [Nat.mul_comm, Nat.mul_add_div (by omega), Nat.div_eq_of_lt ho, Nat.add_zero]
  rw [pageSize_succ] at hpage ⊢
  rcases place_cases t v hv with ⟨p, o, rfl, ho, h⟩ | ⟨q, r, o, rfl, ho, hr⟩ | ⟨p, o, rfl, hp, ho⟩
  · rw [parent_inner ho (h.imp And.left id), hdiv p o ho, hdiv p _ (by omega)] at hpage
    exact absurd rfl hpage
  · rw [parent_first ho hr, hdiv q _ (by omega), hdiv _ o (by omega), Nat.mul_div_cancel_left _
      (show 0 < 2 by omega), Nat.add_sub_cancel, Nat.mul_comm q, Nat.mul_add_div hpos,
      Nat.div_eq_of_lt hr, Nat.add_zero, Nat.mul_add_mod_self_right, Nat.mod_eq_of_lt (by omega)]
    exact ⟨ho, rfl⟩
  · have h4 : 4 ≤ 2 * 2 ^ t := by
      have := Nat.pow_le_pow_right (show 0 < 2 by omega) (show 1 ≤ t by omega)
      omega
    rw [parent_second (by omega) hp ho, hdiv p _ (by omega), hdiv p _ (by omega)] at hpage
    exact absurd rfl hpage

/-- With pages of 512 places, the first two of the second page are below the first place of the
bottom row. -/
theorem child_parent_tree_second_page : 1 ≤ parent 9 513 ∧ parent 9 513 < 513 ∧
    (∀ u, 1 ≤ u → (513 = (child 9 u).1 ∨ 513 = (child 9 u).2 ↔ parent 9 513 = u)) ∧
    (parent 9 513 / pageSize 9 ≠ 513 / pageSize 9 →
      513 % pageSize 9 < 2 ∧
        parent 9 513 / pageSize 9 = (513 / pageSize 9 - 1) / (pageSize 9 / 2)) :=
  child_parent_tree 9 513 (by decide) (by decide) (by decide)

end Event
end VTest
