import VTest.Term.Vram

/-!
# VTest.Term.Copy

`term_copy` under any overlap. Between different rows the order of the `memmove`s matters, and in
one row `memmove` takes care of the overlap: it is a move of a row in the sense of
`VTest.Lib.Moves`, which is computed from the row that is written and the one that is read.

* `copyRows_spec`: the loop makes the moves of its rows, in its order.
* `term_copy_snapshot`: the destination holds what the source held before.
-/

namespace VTest
namespace Term

/-- The rectangle lies on the screen. -/
structure Rect.On (r : Rect) (pp : Process) : Prop where
  rows : r.trBegin.tpRow ≤ r.trEnd.tpRow ∧ r.trEnd.tpRow ≤ pp.nlin
  cols : r.trBegin.tpCol ≤ r.trEnd.tpCol ∧ r.trEnd.tpCol ≤ pp.ncol

/-- The rectangle of the same size at `p`. -/
def Rect.movedTo (r : Rect) (p : Pos) : Rect where
  trBegin := p
  trEnd :=
    { tpRow := p.tpRow + (r.trEnd.tpRow - r.trBegin.tpRow)
      tpCol := p.tpCol + (r.trEnd.tpCol - r.trBegin.tpCol) }

/-- What a `memmove` makes of the row `dst`, out of the row `src`. -/
def moveRow (r : Rect) (p : Pos) (dst src : Bytes) : Bytes :=
  put dst p.tpCol ((src.drop r.trBegin.tpCol).take (r.trEnd.tpCol - r.trBegin.tpCol))

section

variable {pp : Process} {r : Rect} {p : Pos}

theorem copyRow_spec (h : pp.Sized) (hr : r.On pp) (hp : (r.movedTo p).On pp) {y : Nat}
    (hy : y < r.trEnd.tpRow - r.trBegin.tpRow) : ∃ pp', copyRow r p pp y = .ok pp' ∧
      Redrawn pp pp' (Move.apply (moveRow r p) pp.row ⟨p.tpRow + y, r.trBegin.tpRow + y⟩) := by
  have hsrc : r.trBegin.tpRow + y < pp.nlin := by
    have := hr.rows.2
    omega
  have hdst : p.tpRow + y < pp.nlin := by
    have hle : p.tpRow + (r.trEnd.tpRow - r.trBegin.tpRow) ≤ pp.nlin := hp.rows.2
    omega
  have hwidth : p.tpCol + (r.trEnd.tpCol - r.trBegin.tpCol) ≤ pp.ncol := hp.cols.2
  have hload := @Process.Sized.loadRow pp h _ r.trBegin.tpCol
    (r.trEnd.tpCol - r.trBegin.tpCol) hsrc (by have := hr.cols; omega)
  have hfit : p.tpCol + (((pp.row (r.trBegin.tpRow + y)).drop r.trBegin.tpCol).take
      (r.trEnd.tpCol - r.trBegin.tpCol)).length ≤ pp.ncol + 1 := by
    have := List.length_take_le (r.trEnd.tpCol - r.trBegin.tpCol)
      ((pp.row (r.trBegin.tpRow + y)).drop r.trBegin.tpCol)
    omega
  obtain ⟨pp', hstore, hre⟩ := h.store hdst hfit
  refine ⟨pp', ?_, hre⟩
  rw [copyRow, if_neg (Nat.not_lt.mpr hr.cols.1), hload, ok_bind, hstore]

theorem Rect.On.of_size {pp' : Process} (h : r.On pp) (hl : pp'.nlin = pp.nlin)
    (hw : pp'.ncol = pp.ncol) : r.On pp' := by
  obtain ⟨hrows, hcols⟩ := h
  rw [← hl] at hrows
  rw [← hw] at hcols
  exact ⟨hrows, hcols⟩

theorem copyRows_spec (ys : List Nat) : ∀ {pp : Process}, pp.Sized → r.On pp →
    (r.movedTo p).On pp → (∀ y ∈ ys, y < r.trEnd.tpRow - r.trBegin.tpRow) →
    ∃ pp', run (copyRow r p) pp ys = .ok pp' ∧
      Redrawn pp pp' (moveAll (moveRow r p) pp.row (blockMoves p.tpRow r.trBegin.tpRow ys)) := by
  induction ys with
  | nil =>
    intro pp h _ _ _
    exact ⟨pp, rfl, h, rfl, rfl, rfl⟩
  | cons y ys ih =>
    intro pp h hr hp hys
    obtain ⟨hy, hys⟩ := List.forall_mem_cons.mp hys
    obtain ⟨pp1, h1, hre1⟩ := copyRow_spec h hr hp hy
    obtain ⟨pp', hrun, hre⟩ := ih hre1.sized (hr.of_size hre1.nlin hre1.ncol)
      (hp.of_size hre1.nlin hre1.ncol) hys
    refine ⟨pp', by rw [run_cons, h1, ok_bind, hrun], hre.sized, hre.nlin.trans hre1.nlin,
      hre.ncol.trans hre1.ncol, ?_⟩
    rw [hre.row, hre1.row]
    rfl

/-- Either direction of the loop makes its moves in an order that does not show. -/
theorem termCopy_spec (h : pp.Sized) (hr : r.On pp) (hp : (r.movedTo p).On pp) :
    ∃ pp' ys, termCopy pp r p = .ok pp' ∧
      Redrawn pp pp' (moveAll (moveRow r p) pp.row (blockMoves p.tpRow r.trBegin.tpRow ys)) ∧
      Ordered (blockMoves p.tpRow r.trBegin.tpRow ys) ∧
      ∀ y, y ∈ ys ↔ y < r.trEnd.tpRow - r.trBegin.tpRow := by
  by_cases hlt : p.tpRow < r.trBegin.tpRow
  · have hmem : ∀ y, y ∈ List.range (r.trEnd.tpRow - r.trBegin.tpRow) ↔
        y < r.trEnd.tpRow - r.trBegin.tpRow := fun y => List.mem_range
    obtain ⟨pp', hrun, hre⟩ := copyRows_spec _ h hr hp fun y hy => (hmem y).mp hy
    refine ⟨pp', _, ?_, hre, ordered_up hlt _, hmem⟩
    rw [termCopy, if_pos hlt, hrun]
  · have hmem : ∀ y, y ∈ (List.range (r.trEnd.tpRow - r.trBegin.tpRow)).reverse ↔
        y < r.trEnd.tpRow - r.trBegin.tpRow := by
      intro y
      rw [List.mem_reverse, List.mem_range]
    obtain ⟨pp', hrun, hre⟩ := copyRows_spec _ h hr hp fun y hy => (hmem y).mp hy
    refine ⟨pp', _, ?_, hre, ordered_down (Nat.le_of_not_lt hlt) _, hmem⟩
    rw [termCopy, if_neg hlt, hrun]

/-- The bytes of a row that was moved to. -/
theorem getElem?_moveRow {dst src : Bytes} (hr : r.On pp) (hp : (r.movedTo p).On pp)
    (hd : dst.length = pp.ncol + 1) (hs : src.length = pp.ncol + 1) (j : Nat) :
    (moveRow r p dst src)[j]? =
      if p.tpCol ≤ j ∧ j < (r.movedTo p).trEnd.tpCol then src[r.trBegin.tpCol + (j - p.tpCol)]?
      else dst[j]? := by
  have hcols := hr.cols
  have hend : p.tpCol + (r.trEnd.tpCol - r.trBegin.tpCol) ≤ pp.ncol := hp.cols.2
  have hlen : ((src.drop r.trBegin.tpCol).take (r.trEnd.tpCol - r.trBegin.tpCol)).length =
      r.trEnd.tpCol - r.trBegin.tpCol := by
    rw [List.length_take, List.length_drop]
    omega
  rw [moveRow, getElem?_put (by rw [hlen]; omega), hlen]
  show (if p.tpCol ≤ j ∧ j < (r.movedTo p).trEnd.tpCol then _ else _) = _
  split
  · rename_i hj
    have hlt : j < p.tpCol + (r.trEnd.tpCol - r.trBegin.tpCol) := hj.2
    rw [List.getElem?_take_of_lt (by omega), List.getElem?_drop]
  · rfl

/-- The cells after moves that were made in such an order. -/
theorem Redrawn.cell_moved {pp' : Process} {ys : List Nat} (h : pp.Sized) (hr : r.On pp)
    (hp : (r.movedTo p).On pp)
    (hre : Redrawn pp pp' (moveAll (moveRow r p) pp.row (blockMoves p.tpRow r.trBegin.tpRow ys)))
    (hord : Ordered (blockMoves p.tpRow r.trBegin.tpRow ys))
    (hmem : ∀ y, y ∈ ys ↔ y < r.trEnd.tpRow - r.trBegin.tpRow) (i j : Nat) :
    pp'.cell i j = if (r.movedTo p).Contains i j
      then pp.cell (r.trBegin.tpRow + (i - p.tpRow)) (r.trBegin.tpCol + (j - p.tpCol))
      else pp.cell i j := by
  rw [Process.cell, hre.row]
  by_cases hi : p.tpRow ≤ i ∧ i < (r.movedTo p).trEnd.tpRow
  · have hlt : i < p.tpRow + (r.trEnd.tpRow - r.trBegin.tpRow) := hi.2
    have hrows := hr.rows
    have hend : p.tpRow + (r.trEnd.tpRow - r.trBegin.tpRow) ≤ pp.nlin := hp.rows.2
    -- the move of this row
    have hx : (⟨p.tpRow + (i - p.tpRow), r.trBegin.tpRow + (i - p.tpRow)⟩ : Move Nat) ∈
        blockMoves p.tpRow r.trBegin.tpRow ys :=
      List.mem_map.mpr ⟨i - p.tpRow, (hmem _).mpr (by omega), rfl⟩
    have hdst := moveAll_dst hord hx (f := moveRow r p) pp.row
    dsimp only at hdst
    rw [Nat.add_sub_cancel' hi.1] at hdst
    rw [hdst, getElem?_moveRow hr hp (h.ncol i (by omega)) (h.ncol _ (by omega))]
    by_cases hj : p.tpCol ≤ j ∧ j < (r.movedTo p).trEnd.tpCol
    · rw [if_pos hj, if_pos ⟨hi, hj⟩]
      rfl
    · rw [if_neg hj, if_neg fun hc => hj hc.2]
      rfl
  · have hother : moveAll (moveRow r p) pp.row (blockMoves p.tpRow r.trBegin.tpRow ys) i =
        pp.row i := by
      refine moveAll_other (fun x hx hxi => hi ?_) pp.row
      obtain ⟨y, hy, rfl⟩ := List.mem_map.mp hx
      have hylt := (hmem y).mp hy
      show p.tpRow ≤ i ∧ i < p.tpRow + (r.trEnd.tpRow - r.trBegin.tpRow)
      have hxi' : p.tpRow + y = i := hxi
      omega
    rw [hother, if_neg fun hc => hi hc.1]
    rfl

end

/-- **`term_copy` works as if from a snapshot**: each cell of the destination holds what the cell of
the source held, and every other byte, the NULs behind the rows included, is what it was. -/
theorem term_copy_snapshot {pp : Process} (h : pp.Sized) {r : Rect} {p : Pos} (hr : r.On pp)
    (hp : (r.movedTo p).On pp) : ∃ pp', termCopy pp r p = .ok pp' ∧ pp'.Sized ∧
      pp'.nlin = pp.nlin ∧ pp'.ncol = pp.ncol ∧
      ∀ i j, pp'.cell i j = if (r.movedTo p).Contains i j
        then pp.cell (r.trBegin.tpRow + (i - p.tpRow)) (r.trBegin.tpCol + (j - p.tpCol))
        else pp.cell i j := by
  obtain ⟨pp', ys, hrun, hre, hord, hmem⟩ := termCopy_spec h hr hp
  exact ⟨pp', hrun, hre.sized, hre.nlin, hre.ncol, hre.cell_moved h hr hp hord hmem⟩

/-- Three lines of four columns. -/
def letters : Process where
  vram := some [ascii "abcd" ++ [0], ascii "efgh" ++ [0], ascii "ijkl" ++ [0]]
  nlin := 3
  ncol := 4

theorem letters_sized : letters.Sized where
  vram := rfl
  nlin := rfl
  ncol := by decide

/-- The upper left corner is moved down and to the right, over itself. -/
def corner : Rect := ⟨⟨0, 0⟩, ⟨2, 3⟩⟩

theorem term_copy_snapshot_corner : ∃ pp', termCopy letters corner ⟨1, 1⟩ = .ok pp' ∧
    pp'.cell 2 2 = some 102 ∧ pp'.cell 0 0 = some 97 ∧ pp'.cell 2 4 = some 0 := by
  obtain ⟨pp', hrun, _, _, _, hcell⟩ := @term_copy_snapshot letters letters_sized corner ⟨1, 1⟩
    ⟨by decide, by decide⟩ ⟨by decide, by decide⟩
  refine ⟨pp', hrun, ?_, ?_, ?_⟩
  · rw [hcell]
    rfl
  · rw [hcell]
    rfl
  · rw [hcell]
    rfl

end Term
end VTest
