import Mathlib.Data.List.Nodup

/-!
# VTest.Lib.Keyed

Lists whose elements have a key, used as a map: an element is looked up by its key, updated in place
or added at the end, and removed.

* `lookup_upsert`, `lookup_remove`: what is found afterwards.
* `nodup_upsert`, `nodup_remove`: no key is there twice.
-/

namespace VTest
namespace Keyed

variable {α κ : Type} [DecidableEq κ] (key : α → κ)

def lookup (k : κ) (l : List α) : Option α := l.find? (key · = k)

/-- The element with key `k`, or else the new one at the end, is changed by `f`. -/
def upsert (k : κ) (new : α) (f : α → α) : List α → List α
  | [] => [f new]
  | a :: l => if key a = k then f a :: l else a :: upsert k new f l

def remove (k : κ) (l : List α) : List α := l.eraseP (key · = k)

variable {key} {k : κ} {new : α} {f : α → α}

theorem key_of_lookup {l : List α} {a : α} (h : lookup key k l = some a) : key a = k := by
  simpa using List.find?_some h

theorem mem_of_lookup {l : List α} {a : α} (h : lookup key k l = some a) : a ∈ l :=
  List.mem_of_find?_eq_some h

theorem lookup_cons (a : α) (l : List α) :
    lookup key k (a :: l) = if key a = k then some a else lookup key k l := by
  rw [lookup, List.find?_cons]
  by_cases h : key a = k <;> simp [h, lookup]

theorem lookup_eq_none {l : List α} : lookup key k l = none ↔ k ∉ l.map key := by
  simp [lookup, List.find?_eq_none]

/-- Keys that are there once find their element. -/
theorem lookup_of_mem {l : List α} (hn : (l.map key).Nodup) {a : α} (ha : a ∈ l) :
    lookup key (key a) l = some a := by
  induction l with
  | nil => cases ha
  | cons b l ih =>
    rw [List.map_cons, List.nodup_cons] at hn
    rw [lookup_cons]
    rcases List.mem_cons.mp ha with rfl | ha
    · rw [if_pos rfl]
    · have hb : key b ≠ key a := fun hb => hn.1 (hb ▸ List.mem_map_of_mem ha)
      rw [if_neg hb, ih hn.2 ha]

section Upsert

variable (hnew : key new = k) (hf : ∀ a, key (f a) = key a)

include hnew hf

theorem lookup_upsert (l : List α) (k' : κ) :
    lookup key k' (upsert key k new f l) =
      if k' = k then some (f ((lookup key k l).getD new)) else lookup key k' l := by
  induction l with
  | nil =>
    rw [upsert, lookup_cons, hf, hnew]
    by_cases h : k = k' <;> simp [h, Ne.symm, lookup, eq_comm]
  | cons a l ih =>
    rw [upsert]
    by_cases ha : key a = k
    · rw [if_pos ha, lookup_cons, lookup_cons, lookup_cons, if_pos ha, hf]
      by_cases h : k' = k
      · rw [if_pos h, if_pos (ha.trans h.symm)]
        rfl
      · have hne : key a ≠ k' := fun h' => h (h'.symm.trans ha)
        rw [if_neg h, if_neg hne, if_neg hne]
    · rw [if_neg ha, lookup_cons, ih, lookup_cons, lookup_cons, if_neg ha]
      by_cases h : k' = k
      · rw [if_pos h, if_pos h, if_neg fun h' => ha (h'.trans h)]
      · rw [if_neg h, if_neg h]

theorem map_upsert (l : List α) :
    (upsert key k new f l).map key = if k ∈ l.map key then l.map key else l.map key ++ [k] := by
  induction l with
  | nil => simp [upsert, hf, hnew]
  | cons a l ih =>
    rw [upsert]
    by_cases ha : key a = k
    · rw [if_pos ha, if_pos (by simp [ha]), List.map_cons, List.map_cons, hf]
    · rw [if_neg ha, List.map_cons, List.map_cons, ih]
      by_cases h : k ∈ l.map key
      · rw [if_pos h, if_pos (List.mem_cons_of_mem _ h)]
      · rw [if_neg h, if_neg (by simp only [List.mem_cons, not_or]; exact ⟨Ne.symm ha, h⟩)]
        rfl

theorem nodup_upsert {l : List α} (h : (l.map key).Nodup) :
    ((upsert key k new f l).map key).Nodup := by
  rw [map_upsert hnew hf]
  split
  · exact h
  · rename_i hk
    exact List.Nodup.append h (List.nodup_singleton k) (by simpa using hk)

end Upsert

theorem remove_cons (a : α) (l : List α) :
    remove key k (a :: l) = if key a = k then l else a :: remove key k l := by
  rw [remove, List.eraseP_cons]
  by_cases h : key a = k <;> simp [h, remove]

theorem map_remove (l : List α) : (remove key k l).map key = (l.map key).erase k := by
  induction l with
  | nil => rfl
  | cons a l ih =>
    rw [remove_cons, List.map_cons, List.erase_cons]
    by_cases h : key a = k
    · simp [h]
    · simp [h, ih]

theorem nodup_remove {l : List α} (h : (l.map key).Nodup) :
    ((remove key k l).map key).Nodup := by
  rw [map_remove]
  exact h.erase k

theorem lookup_remove {l : List α} (h : (l.map key).Nodup) (k' : κ) :
    lookup key k' (remove key k l) = if k' = k then none else lookup key k' l := by
  by_cases hk : k' = k
  · rw [if_pos hk, lookup_eq_none, map_remove, hk]
    exact h.not_mem_erase
  · rw [if_neg hk]
    induction l with
    | nil => rfl
    | cons a l ih =>
      rw [List.map_cons, List.nodup_cons] at h
      rw [remove_cons]
      by_cases ha : key a = k
      · have hne : key a ≠ k' := fun h' => hk (h'.symm.trans ha)
        rw [if_pos ha, lookup_cons, if_neg hne]
      · rw [if_neg ha, lookup_cons, lookup_cons, ih h.2]

end Keyed
end VTest
