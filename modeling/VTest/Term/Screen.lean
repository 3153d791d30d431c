import VTest.Term.Copy

/-!
# VTest.Term.Screen

The screen as it is seen, and that `vram` shows it.

A `Screen` has a size and a printable character in each place, and nothing else: no rows in memory,
no NULs, no loops. The calls of the emulation are said on it in one line each. `Shows pp s` says
that `vram` holds the screen `s`, with a NUL behind each row.

* `termResize_rows`: the rows after `term_resize`.
* `TermOp.refines`: each call turns a `vram` that shows a screen into one that shows the screen
  after it, and `run_shows` says so of any number of calls.
* `strstr_row`: the search of `term_find_textline` in a row.
* `screen_stays_well_formed`: what follows for `vram`.
-/

namespace VTest
namespace Term

/-! ## Screens -/

/-- A character that is printable. -/
abbrev Glyph := { b : UInt8 // 32 ≤ b ∧ b ≤ 126 }

def Glyph.blank : Glyph := ⟨32, by decide⟩

theorem termChar_printable (ch : UInt32) : 32 ≤ termChar ch ∧ termChar ch ≤ 126 := by
  rw [termChar]
  split
  · decide
  · rename_i h
    rw [Bool.or_eq_true, decide_eq_true_iff, decide_eq_true_iff, not_or] at h
    have h1 : ch.toNat ≤ 126 := by simpa [UInt32.lt_iff_toNat_lt] using h.1
    have h2 : 32 ≤ ch.toNat := by simpa [UInt32.lt_iff_toNat_lt] using h.2
    rw [UInt8.le_iff_toNat_le, UInt8.le_iff_toNat_le, UInt32.toNat_toUInt8,
      Nat.mod_eq_of_lt (by omega)]
    exact ⟨h2, h1⟩

def Glyph.ofChar (ch : UInt32) : Glyph := ⟨termChar ch, termChar_printable ch⟩

/-- What is in a place that is not on the screen does not matter. -/
structure Screen where
  nlin : Nat
  ncol : Nat
  glyph : Nat → Nat → Glyph

namespace Screen

/-- The places in `P` get one character. -/
def draw (s : Screen) (P : Nat → Nat → Prop) [∀ i j, Decidable (P i j)] (g : Glyph) : Screen :=
  { s with glyph := fun i j => if P i j then g else s.glyph i j }

/-- The rectangle at `p` gets what is in `r`. -/
def copy (s : Screen) (r : Rect) (p : Pos) : Screen :=
  { s with glyph := fun i j => if (r.movedTo p).Contains i j
      then s.glyph (r.trBegin.tpRow + (i - p.tpRow)) (r.trBegin.tpCol + (j - p.tpCol))
      else s.glyph i j }

/-- What is on the old screen stays where it is. -/
def resize (s : Screen) (lin col : Nat) : Screen where
  nlin := lin
  ncol := col
  glyph i j := if i < s.nlin ∧ j < s.ncol then s.glyph i j else .blank

/-- No screen. -/
def none : Screen := ⟨0, 0, fun _ _ => .blank⟩

end Screen

/-- `vram` holds the screen. -/
structure Shows (pp : Process) (s : Screen) : Prop where
  sized : pp.Sized
  nlin : pp.nlin = s.nlin
  ncol : pp.ncol = s.ncol
  text : ∀ i < s.nlin, ∀ j < s.ncol, pp.cell i j = some (s.glyph i j).1
  nul : ∀ i < s.nlin, pp.cell i s.ncol = some 0

/-- `vram` has `nlin` rows, each of `ncol` printable characters and a NUL. -/
structure Process.WellFormed (pp : Process) : Prop where
  sized : pp.Sized
  text : ∀ i < pp.nlin, ∀ j < pp.ncol, ∃ b, pp.cell i j = some b ∧ 32 ≤ b ∧ b ≤ 126
  nul : ∀ i < pp.nlin, pp.cell i pp.ncol = some 0

theorem Shows.wellFormed {pp : Process} {s : Screen} (h : Shows pp s) : pp.WellFormed where
  sized := h.sized
  text i hi j hj := by
    rw [h.nlin] at hi
    rw [h.ncol] at hj
    exact ⟨_, h.text i hi j hj, (s.glyph i j).2⟩
  nul i hi := by
    rw [h.nlin] at hi
    rw [h.ncol]
    exact h.nul i hi

/-! ## `term_resize` -/

section

variable {pp np : Process}

theorem storeRow_of_store {i j : Nat} {b : Bytes} {np' : Process}
    (h : np.store i j b = .ok np') : storeRow np.rows i j b = .ok np'.rows := by
  obtain ⟨vram, hv, h⟩ := bind_eq_ok.mp h
  cases h
  exact hv

/-- The row `i` of a new `vram`, with `w` bytes of each of the first `k` rows kept. -/
def keptRow (pp : Process) (col w k i : Nat) : Bytes :=
  if i < k then put (blankRow col) 0 ((pp.row i).take w) else blankRow col

theorem keepRow_loop (h : pp.Sized) (hs : np.Sized)
    (hblank : ∀ i < np.nlin, np.row i = blankRow np.ncol) {w : Nat} (hw : w ≤ np.ncol)
    (hwp : w ≤ pp.ncol) (k : Nat) (hk : k ≤ np.nlin) (hkp : k ≤ pp.nlin) :
    ∃ np' : Process, run (keepRow pp.rows w) np.rows (List.range k) = .ok np'.rows ∧
      np'.Sized ∧ np'.nlin = np.nlin ∧ np'.ncol = np.ncol ∧
      ∀ i < np.nlin, np'.row i = keptRow pp np.ncol w k i := by
  induction k with
  | zero =>
    refine ⟨np, rfl, hs, rfl, rfl, fun i hi => ?_⟩
    rw [hblank i hi, keptRow, if_neg (Nat.not_lt_zero i)]
  | succ k ih =>
    obtain ⟨np1, hrun, hs1, hl1, hc1, hrow1⟩ := ih (by omega) (by omega)
    have hload := @Process.Sized.loadRow pp h k 0 w (by omega) (by omega)
    rw [List.drop_zero] at hload
    have hlen : ((pp.row k).take w).length ≤ w := List.length_take_le _ _
    obtain ⟨np2, hstore, hre⟩ := @Process.Sized.store np1 hs1 k 0 ((pp.row k).take w)
      (by omega) (by omega)
    refine ⟨np2, ?_, hre.sized, hre.nlin.trans hl1, hre.ncol.trans hc1, fun i hi => ?_⟩
    · rw [List.range_succ, run_append, hrun, ok_bind, run_cons, keepRow, hload, ok_bind,
        storeRow_of_store hstore]
      rfl
    · rw [hre.row]
      by_cases hik : i = k
      · subst hik
        rw [Function.update_self, hrow1 i hi, keptRow, keptRow, if_neg (Nat.lt_irrefl i),
          if_pos (Nat.lt_succ_self i)]
      · rw [Function.update_of_ne hik, hrow1 i hi, keptRow, keptRow]
        by_cases hlt : i < k
        · rw [if_pos hlt, if_pos (by omega)]
        · rw [if_neg hlt, if_neg (by omega)]

/-- The new `vram` as it is allocated. -/
def blankProcess (lin col : Nat) : Process where
  vram := some (List.replicate lin (blankRow col))
  nlin := lin
  ncol := col

theorem length_blankRow (col : Nat) : (blankRow col).length = col + 1 := by
  rw [blankRow, List.length_append, List.length_replicate, List.length_singleton]

theorem row_blankProcess {lin col i : Nat} (hi : i < lin) :
    (blankProcess lin col).row i = blankRow col := by
  show (List.replicate lin (blankRow col)).getD i [] = _
  rw [List.getD_eq_getElem _ _ (by rw [List.length_replicate]; exact hi), List.getElem_replicate]

theorem blankProcess_sized (lin col : Nat) : (blankProcess lin col).Sized where
  vram := rfl
  nlin := List.length_replicate
  ncol _ hi := (congrArg List.length (row_blankProcess hi)).trans (length_blankRow col)

theorem termResize_rows (h : pp = {} ∨ pp.Sized) (lin col : Nat) :
    ∃ pp', termResize pp lin col = .ok pp' ∧ pp'.Sized ∧ pp'.nlin = lin ∧ pp'.ncol = col ∧
      ∀ i < lin, pp'.row i = keptRow pp col (min col pp.ncol) (min lin pp.nlin) i := by
  have hb := blankProcess_sized lin col
  rcases h with rfl | h
  · refine ⟨blankProcess lin col, rfl, hb, rfl, rfl, fun i hi => ?_⟩
    have hnone : min lin ({} : Process).nlin = 0 := Nat.min_zero lin
    rw [row_blankProcess hi, keptRow, hnone, if_neg (Nat.not_lt_zero i)]
  · obtain ⟨np, hrun, hs, hl, hc, hrow⟩ := keepRow_loop h hb (fun i hi => row_blankProcess hi)
      (Nat.min_le_left col pp.ncol) (Nat.min_le_right _ _) _ (Nat.min_le_left lin pp.nlin)
      (Nat.min_le_right _ _)
    refine ⟨np, ?_, hs, hl, hc, hrow⟩
    -- the process with the new rows is the one the loop ended in
    have hnp : ({ vram := some np.rows, nlin := lin, ncol := col } : Process) = np := by
      obtain ⟨vram, nlin, ncol⟩ := np
      cases hl
      cases hc
      exact congrArg (Process.mk · lin col) hs.vram.symm
    have hkeep : keepRows pp lin col (List.replicate lin (blankRow col)) = .ok np.rows := by
      rw [keepRows, h.vram]
      refine (congrArg (· >>= _) hrun).trans (if_neg ?_)
      rw [h.nlin]
      exact Nat.lt_irrefl _
    rw [termResize, hkeep, ok_bind]
    exact congrArg Except.ok hnp

theorem getElem?_blankRow {col j : Nat} (hj : j ≤ col) :
    (blankRow col)[j]? = some (if j < col then 32 else 0) := by
  rw [blankRow]
  by_cases hlt : j < col
  · rw [if_pos hlt, List.getElem?_append_left (by rw [List.length_replicate]; exact hlt),
      List.getElem?_replicate, if_pos hlt]
  · obtain rfl : j = col := by omega
    rw [if_neg hlt, List.getElem?_append_right (by rw [List.length_replicate]),
      List.length_replicate, Nat.sub_self]
    rfl

/-- The bytes of a row of the new screen, the NUL included. -/
theorem getElem?_keptRow (h : pp = {} ∨ pp.Sized) {lin col i j : Nat} (hi : i < lin)
    (hj : j ≤ col) : (keptRow pp col (min col pp.ncol) (min lin pp.nlin) i)[j]? =
      if i < pp.nlin ∧ j < min col pp.ncol then pp.cell i j
      else some (if j < col then 32 else 0) := by
  rw [keptRow]
  by_cases hold : i < pp.nlin
  · obtain rfl | h := h
    · cases hold
    have hlen : ((pp.row i).take (min col pp.ncol)).length = min col pp.ncol := by
      rw [List.length_take, h.ncol i hold]
      omega
    rw [if_pos (by omega), getElem?_put (by rw [hlen, length_blankRow]; omega), hlen,
      getElem?_blankRow hj, Nat.sub_zero]
    by_cases hw : j < min col pp.ncol
    · rw [if_pos (by omega), if_pos ⟨hold, hw⟩, List.getElem?_take_of_lt hw]
      rfl
    · have hout : ¬(i < pp.nlin ∧ j < min col pp.ncol) := fun hc => hw hc.2
      rw [if_neg (by omega), if_neg hout]
  · rw [if_neg (by omega), if_neg fun hc => hold hc.1, getElem?_blankRow hj]

end

/-- What is on both screens is kept, and the rest of the new one is blank. -/
structure Resized (pp pp' : Process) (lin col : Nat) : Prop where
  nlin : pp'.nlin = lin
  ncol : pp'.ncol = col
  kept : ∀ i < min lin pp.nlin, ∀ j < min col pp.ncol, pp'.cell i j = pp.cell i j
  blank : ∀ i < lin, ∀ j < col, ¬(i < pp.nlin ∧ j < pp.ncol) → pp'.cell i j = some 32

theorem termResize_spec {pp : Process} (h : pp = {} ∨ pp.Sized) (lin col : Nat) :
    ∃ pp', termResize pp lin col = .ok pp' ∧ pp'.Sized ∧ Resized pp pp' lin col ∧
      ∀ i < lin, pp'.cell i col = some 0 := by
  obtain ⟨pp', hrun, hs, hl, hc, hrow⟩ := termResize_rows h lin col
  have hcell : ∀ i < lin, ∀ j ≤ col, pp'.cell i j =
      if i < pp.nlin ∧ j < min col pp.ncol then pp.cell i j
      else some (if j < col then 32 else 0) := by
    intro i hi j hj
    rw [Process.cell, hrow i hi]
    exact getElem?_keptRow h hi hj
  refine ⟨pp', hrun, hs, ⟨hl, hc, ?_, ?_⟩, ?_⟩
  · intro i hi j hj
    rw [hcell i (by omega) j (by omega), if_pos ⟨by omega, hj⟩]
  · intro i hi j hj hout
    rw [hcell i hi j (by omega), if_neg (by omega), if_pos hj]
  · intro i hi
    rw [hcell i hi col (Nat.le_refl _), if_neg (by omega), if_neg (Nat.lt_irrefl _)]

/-! ## Calls -/

/-- The calls that change the screen. -/
inductive TermOp where
  | resize (lin col : Nat)
  | putchar (pos : Pos) (ch : UInt32)
  | fill (r : Rect) (c : UInt32)
  | copy (r : Rect) (p : Pos)
  deriving DecidableEq, Repr

namespace TermOp

def apply (pp : Process) : TermOp → Res Process
  | resize lin col => termResize pp lin col
  | putchar pos ch => termPutchar pp pos ch
  | fill r c => termFill pp r c
  | copy r p => termCopy pp r p

/-- The call makes a screen, or all that it names is on the screen there is. -/
def On (pp : Process) : TermOp → Prop
  | resize lin col => 0 < lin ∧ 0 < col
  | putchar pos _ => pos.tpRow < pp.nlin ∧ pos.tpCol < pp.ncol
  | fill r _ => ∀ i j, r.Contains i j → i < pp.nlin ∧ j < pp.ncol
  | copy r p => r.On pp ∧ (r.movedTo p).On pp

/-- The screen after the call. -/
def spec (s : Screen) : TermOp → Screen
  | resize lin col => s.resize lin col
  | putchar pos ch => s.draw (fun i j => i = pos.tpRow ∧ j = pos.tpCol) (.ofChar ch)
  | fill r c => s.draw r.Contains (.ofChar c)
  | copy r p => s.copy r p

end TermOp

section

variable {pp pp' : Process} {s : Screen}

theorem Painted.shows {P : Nat → Nat → Prop} [∀ i j, Decidable (P i j)] {g : Glyph}
    (h : Painted pp pp' P g.1) (hs : Shows pp s) (hP : ∀ i j, P i j → j < pp.ncol) :
    Shows pp' (s.draw P g) where
  sized := h.sized
  nlin := h.nlin.trans hs.nlin
  ncol := h.ncol.trans hs.ncol
  text i hi j hj := by
    show _ = some (if P i j then g else s.glyph i j).1
    by_cases hij : P i j
    · rw [if_pos hij]
      exact h.inside i j hij
    · rw [if_neg hij, h.outside i j hij]
      exact hs.text i hi j hj
  nul i hi := by
    have hout : ¬P i s.ncol := by
      intro hij
      have hlt := hP i s.ncol hij
      rw [hs.ncol] at hlt
      exact Nat.lt_irrefl _ hlt
    exact (h.outside i s.ncol hout).trans (hs.nul i hi)

/-- `term_resize` of a screen, or of none. -/
theorem termResize_shows (h : pp = {} ∧ s = .none ∨ Shows pp s) (lin col : Nat) :
    ∃ pp', termResize pp lin col = .ok pp' ∧ Shows pp' (s.resize lin col) ∧
      Resized pp pp' lin col := by
  have hsize : pp.nlin = s.nlin ∧ pp.ncol = s.ncol := by
    rcases h with ⟨rfl, rfl⟩ | h
    · exact ⟨rfl, rfl⟩
    · exact ⟨h.nlin, h.ncol⟩
  have htext : ∀ i < s.nlin, ∀ j < s.ncol, pp.cell i j = some (s.glyph i j).1 := by
    rcases h with ⟨rfl, rfl⟩ | h
    · intro i hi
      cases hi
    · exact h.text
  obtain ⟨pp', hrun, hsized, hre, hnul⟩ := termResize_spec (h.imp And.left Shows.sized) lin col
  refine ⟨pp', hrun, ⟨hsized, hre.nlin, hre.ncol, fun i hi j hj => ?_, hnul⟩, hre⟩
  show _ = some (if i < s.nlin ∧ j < s.ncol then s.glyph i j else Glyph.blank).1
  have hi' : i < lin := hi
  have hj' : j < col := hj
  by_cases hold : i < s.nlin ∧ j < s.ncol
  · rw [if_pos hold, ← htext i hold.1 j hold.2]
    refine hre.kept i ?_ j ?_
    · rw [hsize.1]
      omega
    · rw [hsize.2]
      omega
  · rw [if_neg hold]
    refine hre.blank i hi j hj ?_
    rw [hsize.1, hsize.2]
    exact hold

/-- `DECCOLM` keeps the lines, and what fits into the columns. -/
theorem termParam_shows (hs : Shows pp s) (v : Bool) :
    ∃ pp', termParam pp v = .ok pp' ∧ Shows pp' (s.resize s.nlin (if v then 132 else 80)) := by
  obtain ⟨pp', hrun, hs', _⟩ := termResize_shows (Or.inr hs) pp.nlin (if v then 132 else 80)
  rw [← hs.nlin]
  exact ⟨pp', hrun, hs'⟩

theorem Shows.copy (hs : Shows pp s) {r : Rect} {p : Pos} (hr : r.On pp)
    (hp : (r.movedTo p).On pp) :
    ∃ pp', termCopy pp r p = .ok pp' ∧ Shows pp' (s.copy r p) := by
  obtain ⟨pp', ys, hrun, hre, hord, hmem⟩ := termCopy_spec hs.sized hr hp
  have hcell := hre.cell_moved hs.sized hr hp hord hmem
  refine ⟨pp', hrun, hre.sized, hre.nlin.trans hs.nlin, hre.ncol.trans hs.ncol, ?_, ?_⟩
  · intro i hi j hj
    rw [hcell]
    show _ = some (if (r.movedTo p).Contains i j then
      s.glyph (r.trBegin.tpRow + (i - p.tpRow)) (r.trBegin.tpCol + (j - p.tpCol))
      else s.glyph i j).1
    by_cases hij : (r.movedTo p).Contains i j
    · rw [if_pos hij, if_pos hij]
      -- the place that is copied from is on the screen as well
      obtain ⟨⟨hrow, hrowEnd⟩, hcol, hcolEnd⟩ := hij
      have hrow' : p.tpRow ≤ i := hrow
      have hcol' : p.tpCol ≤ j := hcol
      have hrowEnd' : i < p.tpRow + (r.trEnd.tpRow - r.trBegin.tpRow) := hrowEnd
      have hcolEnd' : j < p.tpCol + (r.trEnd.tpCol - r.trBegin.tpCol) := hcolEnd
      obtain ⟨hrows, hcols⟩ := hr
      rw [hs.nlin] at hrows
      rw [hs.ncol] at hcols
      exact hs.text _ (by omega) _ (by omega)
    · rw [if_neg hij, if_neg hij]
      exact hs.text i hi j hj
  · intro i hi
    have hout : ¬(r.movedTo p).Contains i s.ncol := by
      intro hij
      have hlt := hij.2.2
      have hle := hp.cols.2
      rw [hs.ncol] at hle
      omega
    exact ((hcell i s.ncol).trans (if_neg hout)).trans (hs.nul i hi)

/-- Each call does to `vram` what it does to the screen. -/
theorem TermOp.refines (hs : Shows pp s) {op : TermOp} (hon : op.On pp) :
    ∃ pp', op.apply pp = .ok pp' ∧ Shows pp' (op.spec s) := by
  cases op with
  | resize lin col =>
    obtain ⟨pp', hrun, hs', _⟩ := termResize_shows (Or.inr hs) lin col
    exact ⟨pp', hrun, hs'⟩
  | putchar pos ch =>
    obtain ⟨pp', hrun, hp⟩ := termPutchar_spec hs.sized hon.1 hon.2 ch
    refine ⟨pp', hrun, @Painted.shows _ _ _ _ _ (.ofChar ch) hp hs ?_⟩
    rintro i j ⟨rfl, rfl⟩
    exact hon.2
  | fill r c =>
    obtain ⟨pp', hrun, hp⟩ := termFill_spec hs.sized hon c
    exact ⟨pp', hrun, @Painted.shows _ _ _ _ _ (.ofChar c) hp hs fun i j hij => (hon i j hij).2⟩
  | copy r p => exact hs.copy hon.1 hon.2

theorem run_shows (hs : Shows pp s) {ops : List TermOp}
    (hon : Along TermOp.apply TermOp.On pp ops) :
    ∃ pp', run TermOp.apply pp ops = .ok pp' ∧ Shows pp' (ops.foldl TermOp.spec s) := by
  have hstep : ∀ pp s op, Shows pp s → TermOp.On pp op →
      ∃ pp', TermOp.apply pp op = .ok pp' ∧ Shows pp' (TermOp.spec s op) :=
    fun _ _ _ hs hon => TermOp.refines hs hon
  exact run_refines hstep ops pp s hs hon

end

/-! ## `term_find_textline` -/

theorem isPrefixOf_append_nul {pat t : Bytes} (hp : 0 ∉ pat) :
    pat.isPrefixOf (t ++ [0]) = true ↔ pat <+: t := by
  rw [List.isPrefixOf_iff_prefix, List.prefix_concat_iff]
  refine or_iff_right fun h => hp ?_
  rw [h]
  exact List.mem_append_right t List.mem_cons_self

/-- In a string, `strstr` finds the text where it is, if it is there, and ends at the NUL. -/
theorem strstr_row {pat : Bytes} (hp : 0 ∉ pat) (t : Bytes) (ht : 0 ∉ t) (i : Nat) :
    (∃ a r, t = a ++ pat ++ r ∧ strstr pat i (t ++ [0]) = .ok (some (i + a.length))) ∨
      ¬pat <:+: t ∧ strstr pat i (t ++ [0]) = .ok none := by
  induction t generalizing i with
  | nil =>
    by_cases h : pat = []
    · subst h
      exact Or.inl ⟨[], [], rfl, rfl⟩
    · have hnot : ¬pat.isPrefixOf ([] ++ [0]) = true := by
        rw [isPrefixOf_append_nul hp, List.prefix_nil]
        exact h
      refine Or.inr ⟨fun hin => h (List.infix_nil.mp hin), ?_⟩
      exact (if_neg hnot).trans (if_pos rfl)
  | cons b t ih =>
    obtain ⟨hb, ht⟩ := not_or.mp (List.mem_cons.not.mp ht)
    rw [List.cons_append, strstr]
    by_cases h : pat <+: b :: t
    · obtain ⟨r, hr⟩ := h
      refine Or.inl ⟨[], r, hr.symm, if_pos ?_⟩
      exact (isPrefixOf_append_nul (t := b :: t) hp).mpr ⟨r, hr⟩
    · have hnot : ¬pat.isPrefixOf (b :: (t ++ [0])) = true :=
        fun hpre => h ((isPrefixOf_append_nul (t := b :: t) hp).mp hpre)
      rw [if_neg hnot, if_neg (Ne.symm hb)]
      rcases ih ht (i + 1) with ⟨a, r, ht', hs⟩ | ⟨hin, hs⟩
      · refine Or.inl ⟨b :: a, r, ?_, ?_⟩
        · rw [ht']
          rfl
        · rw [hs, List.length_cons]
          congr 2
          omega
      · exact Or.inr ⟨fun hc => (List.infix_cons_iff.mp hc).elim h hin, hs⟩

/-- The search in row `y` ends, with a place in the row where `pat` is, or as `pat` is nowhere in
it. -/
structure FindsInRow (pp : Process) (y : Nat) (pat : Bytes) : Prop where
  ends : ∃ r, termFindTextline pp 0 y pat = .ok r
  found : ∀ x, termFindTextline pp 0 y pat = .ok (true, x) →
    1 ≤ x ∧ x - 1 + pat.length ≤ pp.ncol ∧ ((pp.row y).drop (x - 1)).take pat.length = pat
  missing : ∀ x, termFindTextline pp 0 y pat = .ok (false, x) → ¬pat <:+: (pp.row y).take pp.ncol

/-- A row is a string of `ncol` characters. -/
theorem Process.WellFormed.row_eq {pp : Process} (h : pp.WellFormed) {y : Nat} (hy : y < pp.nlin) :
    pp.row y = (pp.row y).take pp.ncol ++ [0] ∧ 0 ∉ (pp.row y).take pp.ncol := by
  have hlen := h.sized.ncol y hy
  constructor
  · conv => lhs; rw [← List.take_append_drop pp.ncol (pp.row y)]
    have hnul : (pp.row y)[pp.ncol]? = some 0 := h.nul y hy
    obtain ⟨hlt, hnul⟩ := List.getElem?_eq_some_iff.mp hnul
    rw [List.drop_eq_getElem_cons hlt, hnul, List.drop_of_length_le (by omega)]
  · intro hmem
    obtain ⟨j, hj, hget⟩ := List.mem_iff_getElem.mp hmem
    rw [List.length_take] at hj
    obtain ⟨b, hb, hle, _⟩ := h.text y hy j (by omega)
    have hzero : pp.cell y j = some 0 := by
      rw [Process.cell, ← hget, List.getElem_take]
      exact List.getElem?_eq_getElem _
    cases hzero.symm.trans hb
    exact absurd hle (by decide)

theorem termFindTextline_eq {pp : Process} (h : pp.Sized) {y : Nat} (hy : y < pp.nlin)
    {pat : Bytes} {t : Option Nat} (hs : strstr pat 0 (pp.row y) = .ok t) :
    termFindTextline pp 0 y pat = .ok (t.isSome, t.elim 0 (1 + ·)) := by
  have hget : pp.rows[y]? = some (pp.row y) := getElem?_of_lt (by rw [h.nlin]; exact hy)
  rw [termFindTextline, if_pos rfl, hget]
  dsimp only
  rw [hs]
  cases t <;> rfl

theorem Process.WellFormed.findsInRow {pp : Process} (h : pp.WellFormed) {y : Nat}
    (hy : y < pp.nlin) {pat : Bytes} (hp : 0 ∉ pat) : FindsInRow pp y pat := by
  obtain ⟨hrow, ht⟩ := h.row_eq hy
  have hlen : ((pp.row y).take pp.ncol).length = pp.ncol := by
    rw [List.length_take, h.sized.ncol y hy]
    omega
  rcases strstr_row hp _ ht 0 with ⟨a, r, hsplit, hs⟩ | ⟨hin, hs⟩
  · rw [← hrow] at hs
    have hfind := termFindTextline_eq h.sized hy hs
    refine ⟨⟨_, hfind⟩, fun x hx => ?_, fun x hx => ?_⟩
    · cases hfind.symm.trans hx
      have hle : a.length + pat.length ≤ pp.ncol := by
        rw [← hlen, hsplit, List.length_append, List.length_append]
        omega
      have hx1 : (some (0 + a.length)).elim 0 (1 + ·) = 1 + a.length := by
        rw [Nat.zero_add]
        rfl
      rw [hx1, Nat.add_sub_cancel_left]
      refine ⟨by omega, hle, ?_⟩
      rw [hrow, hsplit, List.append_assoc, List.append_assoc, List.drop_left, List.take_left]
    · cases hfind.symm.trans hx
  · rw [← hrow] at hs
    have hfind := termFindTextline_eq h.sized hy hs
    refine ⟨⟨_, hfind⟩, fun x hx => ?_, fun _ _ => hin⟩
    cases hfind.symm.trans hx

/-- **The screen stays well formed**: whatever calls come after a first `term_resize`, as long as
what they name is on the screen, each of them ends with `nlin` rows of `ncol` printable characters
and a NUL, in which a search stays in its row; and a `term_resize` among them, the first included,
keeps what is on both screens and leaves the rest blank. -/
theorem screen_stays_well_formed {lin col : Nat} {ops : List TermOp}
    (hon : Along TermOp.apply TermOp.On {} (.resize lin col :: ops)) (before after : List TermOp)
    (op : TermOp) (h : .resize lin col :: ops = before ++ op :: after) :
    ∃ pp pp', run TermOp.apply {} before = .ok pp ∧ op.apply pp = .ok pp' ∧ pp'.WellFormed ∧
      (∀ y < pp'.nlin, ∀ pat, 0 ∉ pat → FindsInRow pp' y pat) ∧
      ∀ lin' col', op = .resize lin' col' → Resized pp pp' lin' col' := by
  have hal : Along TermOp.apply TermOp.On {} (before ++ [op]) := by
    rw [h, List.append_cons] at hon
    exact hon.left
  obtain ⟨hbefore, hop⟩ := (Along.snoc_iff _ _ _).mp hal
  obtain ⟨pp1, hfirst, hs1, hre1⟩ := termResize_shows (Or.inl ⟨rfl, rfl⟩) lin col
  cases before with
  | nil =>
    obtain ⟨rfl, rfl⟩ := List.cons.inj h
    refine ⟨{}, pp1, rfl, hfirst, hs1.wellFormed, ?_, ?_⟩
    · exact fun y hy pat hp => hs1.wellFormed.findsInRow hy hp
    · intro lin' col' hop'
      cases hop'
      exact hre1
  | cons first before =>
    obtain ⟨rfl, _⟩ := List.cons.inj h
    obtain ⟨pp, hrun, hs⟩ := run_shows hs1 (hbefore.2 pp1 hfirst)
    have hrun' : run TermOp.apply {} (.resize lin col :: before) = .ok pp := by
      rw [run_cons, TermOp.apply, hfirst, ok_bind, hrun]
    obtain ⟨pp', hstep, hs'⟩ := TermOp.refines hs (hop pp hrun')
    refine ⟨pp, pp', hrun', hstep, hs'.wellFormed, ?_, ?_⟩
    · exact fun y hy pat hp => hs'.wellFormed.findsInRow hy hp
    · rintro lin' col' rfl
      obtain ⟨pp2, h2, _, hre⟩ := termResize_shows (Or.inr hs) lin' col'
      cases hstep.symm.trans h2
      exact hre

/-- An `A` on a screen of two lines and three columns, which then becomes higher and narrower. -/
theorem screen_stays_well_formed_narrower :
    ∃ pp pp', run TermOp.apply {} [.resize 2 3, .putchar ⟨0, 1⟩ 65] = .ok pp ∧
      (TermOp.resize 3 2).apply pp = .ok pp' ∧ pp'.WellFormed ∧
      (∀ y < pp'.nlin, ∀ pat, 0 ∉ pat → FindsInRow pp' y pat) ∧
      ∀ lin col, TermOp.resize 3 2 = .resize lin col → Resized pp pp' lin col := by
  have hon : Along TermOp.apply TermOp.On {} [.resize 2 3, .putchar ⟨0, 1⟩ 65, .resize 3 2] := by
    refine .cons_of_eq (blankProcess 2 3) rfl ⟨by decide, by decide⟩ ?_
    refine ⟨⟨by decide, by decide⟩, fun pp' _ => ?_⟩
    exact ⟨⟨by decide, by decide⟩, fun _ _ => trivial⟩
  exact screen_stays_well_formed hon [.resize 2 3, .putchar ⟨0, 1⟩ 65] [] (.resize 3 2) rfl

end Term
end VTest
