import VTest.Lib.Bytes

/-!
# VTest.Lib.Weighted

First-in first-out lists with a bound on their total weight, newest element first. Room is made
by dropping elements at the old end.

* `fit w cap l`: what is left of `l` when the shortest run of oldest elements is dropped that
  brings the weight down to `cap`. `fit_spec` characterises it without the recursion.
* `insertFit w cap x l`: the insertion of `x` under the bound `cap`; an element that is too heavy
  empties the list.
* `shed`: the loop that drops one element at a time. `shed_eq_fit` says that it computes `fit`.
-/

namespace VTest
namespace Weighted

variable {α : Type*} (w : α → Nat)

def weight (l : List α) : Nat := (l.map w).sum

@[simp] theorem weight_nil : weight w [] = 0 := rfl

@[simp] theorem weight_cons (x : α) (l : List α) : weight w (x :: l) = w x + weight w l := by
  simp [weight]

@[simp] theorem weight_append (l r : List α) : weight w (l ++ r) = weight w l + weight w r := by
  simp [weight]

theorem weight_mono {p l : List α} (h : p <+: l) : weight w p ≤ weight w l := by
  obtain ⟨t, rfl⟩ := h
  simp

theorem weight_dropLast {l : List α} (h : l ≠ []) :
    weight w l = weight w l.dropLast + w (l.getLast h) := by
  conv_lhs => rw [← List.dropLast_append_getLast h]
  simp

/-- The longest prefix of `l` of weight at most `cap`. -/
def fit (cap : Nat) : List α → List α
  | [] => []
  | x :: l => if w x ≤ cap then x :: fit (cap - w x) l else []

theorem fit_isPrefix (cap : Nat) (l : List α) : fit w cap l <+: l := by
  induction l generalizing cap with
  | nil => exact List.prefix_refl _
  | cons x l ih =>
    simp only [fit]
    split
    · exact List.cons_prefix_cons.mpr ⟨rfl, ih _⟩
    · exact List.nil_prefix

theorem weight_fit_le (cap : Nat) (l : List α) : weight w (fit w cap l) ≤ cap := by
  induction l generalizing cap with
  | nil => simp [fit]
  | cons x l ih =>
    simp only [fit]
    split
    · have := ih (cap - w x)
      simp only [weight_cons]
      omega
    · simp

/-- No prefix within the bound is longer. -/
theorem prefix_fit {cap : Nat} {p l : List α} (h : p <+: l) (hw : weight w p ≤ cap) :
    p <+: fit w cap l := by
  induction l generalizing cap p with
  | nil => simpa [fit] using h
  | cons x l ih =>
    cases p with
    | nil => exact List.nil_prefix
    | cons y p =>
      obtain ⟨rfl, hp⟩ := List.cons_prefix_cons.mp h
      simp only [weight_cons] at hw
      simp only [fit, if_pos (show w y ≤ cap by omega)]
      exact List.cons_prefix_cons.mpr ⟨rfl, ih hp (by omega)⟩

theorem fit_eq_self {cap : Nat} {l : List α} (h : weight w l ≤ cap) : fit w cap l = l :=
  (fit_isPrefix w cap l).eq_of_length_le (prefix_fit w (List.prefix_refl l) h).length_le

/-- `fit` keeps the `k` newest elements, where `k` is the only number such that they are within
the bound and, unless nothing was dropped, one more is not. -/
theorem fit_spec (cap : Nat) (l : List α) :
    ∃ k, k ≤ l.length ∧ fit w cap l = l.take k ∧ weight w (l.take k) ≤ cap ∧
      (k < l.length → cap < weight w (l.take (k + 1))) := by
  have hp := fit_isPrefix w cap l
  refine ⟨(fit w cap l).length, hp.length_le, List.prefix_iff_eq_take.mp hp, ?_, ?_⟩
  · rw [← List.prefix_iff_eq_take.mp hp]; exact weight_fit_le w cap l
  · intro hk
    by_contra hle
    have hk' : l.take ((fit w cap l).length + 1) <+: l := List.take_prefix _ l
    have := (prefix_fit w hk' (Nat.le_of_not_lt hle)).length_le
    rw [List.length_take] at this
    omega

theorem fit_dropLast {cap : Nat} {l : List α} (h : cap < weight w l) :
    fit w cap l = fit w cap l.dropLast := by
  have hp := fit_isPrefix w cap l
  have hlt : (fit w cap l).length < l.length := by
    refine lt_of_le_of_ne hp.length_le fun he => ?_
    have := weight_fit_le w cap l
    rw [hp.eq_of_length he] at this
    omega
  have hdl : fit w cap l <+: l.dropLast := by
    rw [List.dropLast_eq_take]
    exact List.prefix_take_iff.mpr ⟨hp, by omega⟩
  have h1 := prefix_fit w hdl (weight_fit_le w cap l)
  have hl : l.dropLast <+: l := List.dropLast_prefix l
  have h2 := prefix_fit w ((fit_isPrefix w cap l.dropLast).trans hl)
    (weight_fit_le w cap l.dropLast)
  exact h1.eq_of_length_le h2.length_le

/-- Insertion under the bound `cap`. -/
def insertFit (cap : Nat) (x : α) (l : List α) : List α :=
  if w x ≤ cap then x :: fit w (cap - w x) l else []

theorem weight_insertFit_le (cap : Nat) (x : α) (l : List α) :
    weight w (insertFit w cap x l) ≤ cap := by
  unfold insertFit
  split
  · have := weight_fit_le w (cap - w x) l
    simp only [weight_cons]
    omega
  · simp

/-- Drop the oldest element as long as there is one and the rest is over `cap`. -/
def shed (cap : Nat) : Nat → List α → List α
  | 0, l => l
  | n + 1, l => if l ≠ [] ∧ cap < weight w l then shed cap n l.dropLast else l

theorem shed_eq_fit {cap n : Nat} {l : List α} (hn : l.length ≤ n) :
    shed w cap n l = fit w cap l := by
  induction n generalizing l with
  | zero =>
    have : l = [] := List.length_eq_zero_iff.mp (by omega)
    subst this
    rfl
  | succ n ih =>
    simp only [shed]
    split
    · rename_i hc
      rw [fit_dropLast w hc.2]
      exact ih (by rw [List.length_dropLast]; omega)
    · rename_i hc
      refine (fit_eq_self w ?_).symm
      by_contra hlt
      refine hc ⟨?_, by omega⟩
      rintro rfl
      simp at hlt

end Weighted
end VTest
