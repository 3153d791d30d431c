import Mathlib.Data.List.Range
import Mathlib.Logic.Function.Basic

/-!
# VTest.Lib.Moves

Moves in an indexed memory, made one after the other: the cell `dst` gets a value that is computed
from what it holds and from what the cell `src` holds.

Where no move reads or writes a cell that an earlier one has written, the order does not show: every
cell gets what it would have got from a snapshot of the memory.

* `moveAll_dst`, `moveAll_other`: the memory after moves that are ordered in this way.
* `ordered_up`, `ordered_down`: a block of cells moves to lower indices from its first cell on, and
  to higher ones, or onto itself, from its last.
-/

namespace VTest

variable {ι α : Type} [DecidableEq ι]

structure Move (ι : Type) where
  dst : ι
  src : ι

def Move.apply (f : α → α → α) (m : ι → α) (x : Move ι) : ι → α :=
  Function.update m x.dst (f (m x.dst) (m x.src))

def moveAll (f : α → α → α) (m : ι → α) (l : List (Move ι)) : ι → α := l.foldl (Move.apply f) m

/-- No move reads or writes what an earlier one has written. -/
def Ordered (l : List (Move ι)) : Prop := l.Pairwise fun x y => x.dst ≠ y.dst ∧ x.dst ≠ y.src

variable {f : α → α → α}

theorem Move.apply_of_ne {x : Move ι} {i : ι} (h : x.dst ≠ i) (m : ι → α) : x.apply f m i = m i :=
  Function.update_of_ne (Ne.symm h) _ _

theorem Move.apply_dst (x : Move ι) (m : ι → α) :
    x.apply f m x.dst = f (m x.dst) (m x.src) :=
  Function.update_self _ _ _

theorem moveAll_other {l : List (Move ι)} {i : ι} (h : ∀ x ∈ l, x.dst ≠ i) (m : ι → α) :
    moveAll f m l i = m i := by
  induction l generalizing m with
  | nil => rfl
  | cons x l ih =>
    obtain ⟨hx, hl⟩ := List.forall_mem_cons.mp h
    exact (ih hl (x.apply f m)).trans (Move.apply_of_ne hx m)

/-- A cell that is moved to gets its value from the memory before all moves. -/
theorem moveAll_dst {l : List (Move ι)} (h : Ordered l) {x : Move ι} (hx : x ∈ l) (m : ι → α) :
    moveAll f m l x.dst = f (m x.dst) (m x.src) := by
  induction l generalizing m with
  | nil => cases hx
  | cons y l ih =>
    obtain ⟨hy, hl⟩ := List.pairwise_cons.mp h
    rcases List.mem_cons.mp hx with rfl | hx
    · -- it is the first move, and none of the others comes to its cell
      have hrest : moveAll f (x.apply f m) l x.dst = x.apply f m x.dst :=
        moveAll_other (fun z hz => (hy z hz).1.symm) _
      exact hrest.trans (x.apply_dst m)
    · have hrest := ih hl hx (y.apply f m)
      rw [Move.apply_of_ne (hy x hx).1, Move.apply_of_ne (hy x hx).2] at hrest
      exact hrest

/-! ## Blocks -/

/-- The moves that take the cells from `s` on to those from `d` on, in the order of `ys`. -/
def blockMoves (d s : Nat) (ys : List Nat) : List (Move Nat) := ys.map fun y => ⟨d + y, s + y⟩

theorem ordered_blockMoves {d s : Nat} {ys : List Nat}
    (h : ys.Pairwise fun y z => y ≠ z ∧ d + y ≠ s + z) : Ordered (blockMoves d s ys) := by
  refine List.pairwise_map.mpr (h.imp fun {y z} hyz => ⟨fun heq => ?_, hyz.2⟩)
  exact hyz.1 (Nat.add_left_cancel heq)

theorem ordered_up {d s : Nat} (h : d < s) (n : Nat) : Ordered (blockMoves d s (List.range n)) := by
  refine ordered_blockMoves (List.pairwise_lt_range.imp fun {y z} hlt => ⟨?_, ?_⟩)
  · omega
  · omega

theorem ordered_down {d s : Nat} (h : s ≤ d) (n : Nat) :
    Ordered (blockMoves d s (List.range n).reverse) := by
  refine ordered_blockMoves (List.pairwise_reverse.mpr ?_)
  refine List.pairwise_lt_range.imp fun {y z} hlt => ⟨?_, ?_⟩
  · omega
  · omega

end VTest
