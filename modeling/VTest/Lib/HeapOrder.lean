import Mathlib

/-!
# VTest.Lib.HeapOrder

Heap order in an array, over any tree of its indices. The places are the numbers from 1 up to a
bound, 1 is the root, and the tree is given by the parent of each other place.

A place at which the order may be broken is one that both moves of a heap start from. `Around`
says that the order holds everywhere else, and holds between what is above the place and what is
below it. What is in the place does not matter to it.

* `Around.up`, `UpOk.up`: the exchange with the parent.
* `DownOk.down`: the exchange with the child that comes first.
* `Ordered.root`: in a heap, nothing comes before the root.
-/

namespace VTest

/-- The order in which two things come: a strict one, in which "not before" is transitive. -/
structure StrictWeak {α : Type} (r : α → α → Prop) : Prop where
  asymm : ∀ {x y}, r x y → ¬r y x
  negTrans : ∀ {x y z}, ¬r x y → ¬r y z → ¬r x z

theorem StrictWeak.of_key {α K : Type} [LinearOrder K] (key : α → K) :
    StrictWeak fun x y => key x < key y where
  asymm h := not_lt_of_gt h
  negTrans h1 h2 := not_lt.mpr ((not_lt.mp h2).trans (not_lt.mp h1))

/-- A tree of the numbers from 1 on. -/
structure IndexTree where
  parent : Nat → Nat
  pos : ∀ u, 1 < u → 1 ≤ parent u
  lt : ∀ u, 1 < u → parent u < u

namespace HeapOrder

variable {α : Type}

/-- The contents of two places are exchanged. -/
def swapAt (a : Nat → α) (u v : Nat) : Nat → α := fun i => a (Equiv.swap u v i)

@[simp] theorem swapAt_left (a : Nat → α) (u v : Nat) : swapAt a u v u = a v := by
  rw [swapAt, Equiv.swap_apply_left]

@[simp] theorem swapAt_right (a : Nat → α) (u v : Nat) : swapAt a u v v = a u := by
  rw [swapAt, Equiv.swap_apply_right]

theorem swapAt_of_ne {a : Nat → α} {u v i : Nat} (hu : i ≠ u) (hv : i ≠ v) :
    swapAt a u v i = a i := by
  rw [swapAt, Equiv.swap_apply_of_ne_of_ne hu hv]

/-- An exchange of two of the places below `n` keeps what is in them. -/
theorem exists_swapAt {a : Nat → α} {u v n : Nat} (hu : 1 ≤ u) (hun : u < n) (hv : 1 ≤ v)
    (hvn : v < n) (p : α) :
    (∃ i, 1 ≤ i ∧ i < n ∧ swapAt a u v i = p) ↔ ∃ i, 1 ≤ i ∧ i < n ∧ a i = p := by
  have hmap : ∀ i, 1 ≤ i → i < n → 1 ≤ Equiv.swap u v i ∧ Equiv.swap u v i < n := by
    intro i hi hin
    rw [Equiv.swap_apply_def]
    split_ifs <;> omega
  constructor
  · rintro ⟨i, hi, hin, hp⟩
    exact ⟨Equiv.swap u v i, (hmap i hi hin).1, (hmap i hi hin).2, hp⟩
  · rintro ⟨i, hi, hin, hp⟩
    refine ⟨Equiv.swap u v i, (hmap i hi hin).1, (hmap i hi hin).2, ?_⟩
    rw [swapAt, Equiv.swap_apply_self, hp]

variable (T : IndexTree) (r : α → α → Prop)

/-- No place below `n` comes before its parent. -/
def Ordered (a : Nat → α) (n : Nat) : Prop :=
  ∀ v, 1 < v → v < n → ¬r (a v) (a (T.parent v))

/-- The order holds but for the place `u`. -/
structure Around (a : Nat → α) (n u : Nat) : Prop where
  off : ∀ v, 1 < v → v < n → v ≠ u → T.parent v ≠ u → ¬r (a v) (a (T.parent v))
  across : 1 < u → ∀ v, 1 < v → v < n → T.parent v = u → ¬r (a v) (a (T.parent u))

/-- What is in `u` may have to go up. -/
structure UpOk (a : Nat → α) (n u : Nat) : Prop extends Around T r a n u where
  below : ∀ v, 1 < v → v < n → T.parent v = u → ¬r (a v) (a u)

/-- What is in `u` may have to go down. -/
structure DownOk (a : Nat → α) (n u : Nat) : Prop extends Around T r a n u where
  above : 1 < u → ¬r (a u) (a (T.parent u))

variable {T r} {a b : Nat → α} {n u : Nat}

theorem Ordered.around (hr : StrictWeak r) (h : Ordered T r a n) (hu : u < n) :
    Around T r a n u where
  off v hv hvn _ _ := h v hv hvn
  across h1 v hv hvn hp := by
    have hvu := h v hv hvn
    rw [hp] at hvu
    exact hr.negTrans hvu (h u h1 hu)

theorem Ordered.congr (h : Ordered T r a n) (hab : ∀ v, 1 ≤ v → v < n → b v = a v) :
    Ordered T r b n := by
  intro v hv hvn
  have hp := T.lt v hv
  rw [hab v (by omega) hvn, hab _ (T.pos v hv) (by omega)]
  exact h v hv hvn

/-- Without its last place, nothing that was ordered around it is out of order. -/
theorem Around.ordered_pred (h : Around T r a (n + 1) n) : Ordered T r a n := by
  intro v hv hvn
  have hp := T.lt v hv
  exact h.off v hv (by omega) (by omega) (by omega)

theorem Around.mono {m : Nat} (h : Around T r a n u) (hm : m ≤ n) : Around T r a m u where
  off v hv hvm := h.off v hv (Nat.lt_of_lt_of_le hvm hm)
  across h1 v hv hvm := h.across h1 v hv (Nat.lt_of_lt_of_le hvm hm)

/-- `Around` looks at no place but those below `n`, and not at `u`. -/
theorem Around.congr (h : Around T r a n u)
    (hab : ∀ v, 1 ≤ v → v < n → v ≠ u → b v = a v) : Around T r b n u where
  off v hv hvn hvu hpu := by
    have hp := T.lt v hv
    rw [hab v (by omega) hvn hvu, hab _ (T.pos v hv) (by omega) hpu]
    exact h.off v hv hvn hvu hpu
  across h1 v hv hvn hpu := by
    have hpp := T.lt u h1
    have hpv := T.lt v hv
    rw [hab v (by omega) hvn (by omega), hab _ (T.pos u h1) (by omega) (by omega)]
    exact h.across h1 v hv hvn hpu

/-- The order of other things than the one in `u` may not change. -/
theorem Around.rekey {r' : α → α → Prop} (h : Around T r a n u)
    (hr : ∀ v w, 1 ≤ v → v < n → v ≠ u → 1 ≤ w → w < n → w ≠ u →
      (r' (a v) (a w) ↔ r (a v) (a w))) : Around T r' a n u where
  off v hv hvn hvu hpu := by
    have hp := T.lt v hv
    rw [hr v _ (by omega) hvn hvu (T.pos v hv) (by omega) hpu]
    exact h.off v hv hvn hvu hpu
  across h1 v hv hvn hpu := by
    have hpp := T.lt u h1
    have hpv := T.lt v hv
    rw [hr v _ (by omega) hvn (by omega) (T.pos u h1) (by omega) (by omega)]
    exact h.across h1 v hv hvn hpu

/-- Behind the last place there is nothing to be out of order with. -/
theorem Ordered.upOk_last (h : Ordered T r a n) (hab : ∀ v, 1 ≤ v → v < n → b v = a v) :
    UpOk T r b (n + 1) n where
  off v hv hvn hvu hpu := by
    have hp := T.lt v hv
    rw [hab v (by omega) (by omega), hab _ (T.pos v hv) (by omega)]
    exact h v hv (by omega)
  across _ v hv hvn hpu := by
    have hp := T.lt v hv
    omega
  below v hv hvn hpu := by
    have hp := T.lt v hv
    omega

theorem UpOk.ordered (h : UpOk T r a n u) (habove : 1 < u → ¬r (a u) (a (T.parent u))) :
    Ordered T r a n := by
  intro v hv hvn
  by_cases hvu : v = u
  · subst hvu
    exact habove hv
  by_cases hpu : T.parent v = u
  · rw [hpu]
    exact h.below v hv hvn hpu
  · exact h.off v hv hvn hvu hpu

theorem DownOk.ordered (h : DownOk T r a n u)
    (hbelow : ∀ v, 1 < v → v < n → T.parent v = u → ¬r (a v) (a u)) : Ordered T r a n :=
  UpOk.ordered ⟨h.toAround, hbelow⟩ h.above

/-- After the exchange with the parent, it is the parent's place that may be out of order. -/
theorem Around.up (hr : StrictWeak r) (h : Around T r a n u) (h1 : 1 < u) (hu : u < n) :
    Around T r (swapAt a u (T.parent u)) n (T.parent u) := by
  have hp := T.lt u h1
  have hpar : 1 < T.parent u → ¬r (a (T.parent u)) (a (T.parent (T.parent u))) := by
    intro hp1
    have hpp := T.lt _ hp1
    exact h.off _ hp1 (by omega) (by omega) (by omega)
  constructor
  · intro v hv hvn hvp hpv
    have hvu : v ≠ u := by
      rintro rfl
      exact hpv rfl
    rw [swapAt_of_ne hvu hvp]
    by_cases hpu : T.parent v = u
    · rw [hpu, swapAt_left]
      exact h.across h1 v hv hvn hpu
    · rw [swapAt_of_ne hpu hpv]
      exact h.off v hv hvn hvu hpu
  · intro hp1 v hv hvn hpv
    have hpp := T.lt _ hp1
    have hvp := T.lt v hv
    have habove : swapAt a u (T.parent u) (T.parent (T.parent u)) =
        a (T.parent (T.parent u)) := swapAt_of_ne (by omega) (by omega)
    rw [habove]
    by_cases hvu : v = u
    · rw [hvu, swapAt_left]
      exact hpar hp1
    · rw [swapAt_of_ne hvu (by omega)]
      have hsib := h.off v hv hvn hvu (by omega)
      rw [hpv] at hsib
      exact hr.negTrans hsib (hpar hp1)

theorem UpOk.up (hr : StrictWeak r) (h : UpOk T r a n u) (h1 : 1 < u) (hu : u < n)
    (hlt : r (a u) (a (T.parent u))) :
    UpOk T r (swapAt a u (T.parent u)) n (T.parent u) := by
  refine ⟨h.toAround.up hr h1 hu, fun v hv hvn hpv => ?_⟩
  have hp := T.lt u h1
  have hvp := T.lt v hv
  rw [swapAt_right]
  by_cases hvu : v = u
  · rw [hvu, swapAt_left]
    exact hr.asymm hlt
  · rw [swapAt_of_ne hvu (by omega)]
    have hsib := h.off v hv hvn hvu (by omega)
    rw [hpv] at hsib
    exact hr.negTrans hsib (hr.asymm hlt)

/-- After the exchange with the child that comes first, it is the child's place. -/
theorem DownOk.down (h : DownOk T r a n u) {c : Nat} (hc1 : 1 < c) (hc : c < n)
    (hcu : T.parent c = u) (hmin : ∀ v, 1 < v → v < n → T.parent v = u → ¬r (a v) (a c))
    (hge : ¬r (a u) (a c)) : DownOk T r (swapAt a u c) n c := by
  have hcp := T.lt c hc1
  refine ⟨⟨fun v hv hvn hvc hpv => ?_, fun _ v hv hvn hpv => ?_⟩, fun _ => ?_⟩
  · by_cases hvu : v = u
    · have hpu := T.lt v hv
      rw [hvu] at hv hpu ⊢
      rw [swapAt_left, swapAt_of_ne (by omega) (by omega)]
      exact h.across hv c hc1 hc hcu
    · rw [swapAt_of_ne hvu hvc]
      by_cases hpu : T.parent v = u
      · rw [hpu, swapAt_left]
        exact hmin v hv hvn hpu
      · rw [swapAt_of_ne hpu hpv]
        exact h.off v hv hvn hvu hpu
  · have hvp := T.lt v hv
    rw [hcu, swapAt_left, swapAt_of_ne (by omega) (by omega)]
    have hpair := h.off v hv hvn (by omega) (by omega)
    rw [hpv] at hpair
    exact hpair
  · rw [hcu, swapAt_left, swapAt_right]
    exact hge

/-- Nothing in a heap comes before its root. -/
theorem Ordered.root (hr : StrictWeak r) (h : Ordered T r a n) {v : Nat} (hv : 1 ≤ v)
    (hvn : v < n) : ¬r (a v) (a 1) := by
  induction v using Nat.strongRecOn with
  | ind v ih =>
    by_cases h1 : v = 1
    · subst h1
      exact fun hlt => hr.asymm hlt hlt
    · have hv1 : 1 < v := by omega
      have hp := T.lt v hv1
      exact hr.negTrans (h v hv1 hvn) (ih _ hp (T.pos v hv1) (by omega))

end HeapOrder

end VTest
