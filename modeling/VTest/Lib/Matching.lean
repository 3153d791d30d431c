import Mathlib.Data.List.Forall2
import Mathlib.Data.List.Perm.Basic

/-!
# VTest.Lib.Matching

Two lists whose elements can be paired off, in whatever order.

* `Pairs.insert`, `Pairs.remove`: a pair more, and a pair less where there is no choice.
-/

namespace VTest

variable {α β : Type} {R : α → β → Prop}

/-- The elements of the second list are those of the first, one to one, up to their order. -/
def Pairs (R : α → β → Prop) (us : List α) (rs : List β) : Prop :=
  ∃ rs', rs'.Perm rs ∧ List.Forall₂ R us rs'

theorem forall₂_append_left {us us' : List α} {rs : List β} (h : List.Forall₂ R (us ++ us') rs) :
    ∃ a b, rs = a ++ b ∧ List.Forall₂ R us a ∧ List.Forall₂ R us' b := by
  induction us generalizing rs with
  | nil => exact ⟨[], rs, rfl, .nil, h⟩
  | cons u us ih =>
    cases h with
    | cons hu h =>
      obtain ⟨a, b, rfl, ha, hb⟩ := ih h
      exact ⟨_ :: a, b, rfl, .cons hu ha, hb⟩

theorem forall₂_append_right {us : List α} {a b : List β} (h : List.Forall₂ R us (a ++ b)) :
    ∃ us1 us2, us = us1 ++ us2 ∧ List.Forall₂ R us1 a ∧ List.Forall₂ R us2 b := by
  obtain ⟨us1, us2, rfl, h1, h2⟩ := forall₂_append_left h.flip
  exact ⟨us1, us2, rfl, h1.flip, h2.flip⟩

namespace Pairs

theorem length_eq {us : List α} {rs : List β} (h : Pairs R us rs) : us.length = rs.length := by
  obtain ⟨rs', hperm, hall⟩ := h
  rw [hall.length_eq, hperm.length_eq]

theorem perm {us : List α} {rs rs' : List β} (h : Pairs R us rs) (hp : rs.Perm rs') :
    Pairs R us rs' := by
  obtain ⟨rs0, hperm, hall⟩ := h
  exact ⟨rs0, hperm.trans hp, hall⟩

theorem nil : Pairs R [] [] := ⟨[], .refl _, .nil⟩

theorem cons {us : List α} {rs : List β} {u : α} {r : β} (hr : R u r) (h : Pairs R us rs) :
    Pairs R (u :: us) (r :: rs) := by
  obtain ⟨rs', hperm, hall⟩ := h
  exact ⟨r :: rs', hperm.cons r, .cons hr hall⟩

theorem insert {us us' : List α} {rs : List β} {u : α} {r : β} (h : Pairs R (us ++ us') rs)
    (hr : R u r) : Pairs R (us ++ u :: us') (r :: rs) := by
  obtain ⟨rs', hperm, hall⟩ := h
  obtain ⟨a, b, rfl, ha, hb⟩ := forall₂_append_left hall
  exact ⟨a ++ r :: b, List.perm_middle.trans (hperm.cons r), List.rel_append ha (.cons hr hb)⟩

/-- The first element is paired with some other. -/
theorem exists_of_cons {us : List α} {rs : List β} {r : β} (h : Pairs R us (r :: rs)) :
    ∃ us1 u us2, us = us1 ++ u :: us2 ∧ R u r ∧ Pairs R (us1 ++ us2) rs := by
  obtain ⟨rs', hperm, hall⟩ := h
  obtain ⟨a, b, rfl⟩ := List.append_of_mem (hperm.mem_iff.mpr List.mem_cons_self)
  obtain ⟨us1, us2, rfl, h1, h2⟩ := forall₂_append_right hall
  cases h2 with
  | cons hu h2 =>
    refine ⟨us1, _, _, rfl, hu, a ++ b, ?_, List.rel_append h1 h2⟩
    exact (List.perm_middle.symm.trans hperm).cons_inv

/-- An element that goes with one other only is paired with that one. -/
theorem remove {us us' : List α} {rs : List β} {u : α} {r : β}
    (h : Pairs R (us ++ u :: us') (r :: rs)) (honly : ∀ v ∈ us ++ us', ¬R v r) :
    Pairs R (us ++ us') rs := by
  obtain ⟨us1, v, us2, heq, hv, hrest⟩ := h.exists_of_cons
  rcases List.append_eq_append_iff.mp heq with ⟨x, rfl, hx⟩ | ⟨x, rfl, hx⟩
  · cases x with
    | nil =>
      cases hx
      simpa using hrest
    | cons w x =>
      cases hx
      exact absurd hv (honly v (by simp))
  · cases x with
    | nil =>
      cases hx
      simpa using hrest
    | cons w x =>
      cases hx
      exact absurd hv (honly v (by simp))

end Pairs
end VTest
