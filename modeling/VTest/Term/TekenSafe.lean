import VTest.Lib.Defined
import VTest.Term.TekenInput

/-!
# VTest.Term.TekenSafe

No assertion of the emulation fails.

`Win` says that the window which the emulation knows of is on the screen, and `Placed` that the
cursor and the regions are in the window. `Safe s x` is what each subroutine is shown to do from a
state `s` where both hold: it returns, both hold again, and the sequence that is being read is
where it was.

* `fill_spec`, `copy_spec`, `putchar_spec`: the drawing calls, on the screen.
* `Cmd.safe`: every sequence.
* `inputByte_safe`: every byte.
* `emulation_never_aborts`, `narrow_window_aborts`: how wide a window has to be.
-/

namespace VTest
namespace Term

/-! ## Windows -/

/-- The largest argument of a sequence. -/
def numMax : Nat := 429496719

/-- A window of `w` rows and columns on a screen. -/
structure Win (w : Pos) (pp : Process) (sc : Screen) : Prop where
  shows : Shows pp sc
  row : w.tpRow = pp.nlin % 65536
  col : w.tpCol = pp.ncol % 65536
  row_pos : 0 < w.tpRow
  col_pos : 0 < w.tpCol

section

variable {w : Pos} {pp : Process} {sc : Screen}

theorem Win.row_le (h : Win w pp sc) : w.tpRow ≤ pp.nlin := by
  rw [h.row]
  exact Nat.mod_le _ _

theorem Win.col_le (h : Win w pp sc) : w.tpCol ≤ pp.ncol := by
  rw [h.col]
  exact Nat.mod_le _ _

/-- A call that keeps the size of the screen keeps the window. -/
theorem Win.redraw (h : Win w pp sc) {pp' : Process} {sc' : Screen} (hs : Shows pp' sc')
    (hlin : sc'.nlin = sc.nlin) (hcol : sc'.ncol = sc.ncol) : Win w pp' sc' where
  shows := hs
  row := by rw [hs.nlin, hlin, ← h.shows.nlin, h.row]
  col := by rw [hs.ncol, hcol, ← h.shows.ncol, h.col]
  row_pos := h.row_pos
  col_pos := h.col_pos

end

/-! ## Drawing calls -/

section

variable {s : Emu} {sc : Screen}

theorem fill_spec (h : Win s.tek.winsize s.pp sc) {r : Rect} (c : UInt32)
    (hrow : r.trBegin.tpRow < r.trEnd.tpRow) (hrowEnd : r.trEnd.tpRow ≤ s.tek.winsize.tpRow)
    (hcol : r.trBegin.tpCol < r.trEnd.tpCol) (hcolEnd : r.trEnd.tpCol ≤ s.tek.winsize.tpCol) :
    ∃ pp', funcsFill s r c = .ok { s with pp := pp' } ∧
      Win s.tek.winsize pp' (sc.draw r.Contains (.ofChar c)) := by
  have hrows := h.row_le
  have hcols := h.col_le
  have hon : TermOp.On s.pp (.fill r c) :=
    fun i j hij => ⟨by have := hij.1.2; omega, by have := hij.2.2; omega⟩
  obtain ⟨pp', hrun, hs⟩ := TermOp.refines h.shows hon
  refine ⟨pp', ?_, h.redraw hs rfl rfl⟩
  rw [funcsFill, decide_eq_true hrow, decide_eq_true hrowEnd, decide_eq_true hcol,
    decide_eq_true hcolEnd]
  exact (bind_eq_ok (x := termFill s.pp r c)).mpr ⟨pp', hrun, rfl⟩

theorem copy_spec (h : Win s.tek.winsize s.pp sc) {r : Rect} {p : Pos}
    (hrow : r.trBegin.tpRow < r.trEnd.tpRow) (hrowEnd : r.trEnd.tpRow ≤ s.tek.winsize.tpRow)
    (hcol : r.trBegin.tpCol < r.trEnd.tpCol) (hcolEnd : r.trEnd.tpCol ≤ s.tek.winsize.tpCol)
    (hto : p.tpRow + (r.trEnd.tpRow - r.trBegin.tpRow) ≤ s.tek.winsize.tpRow)
    (htoCol : p.tpCol + (r.trEnd.tpCol - r.trBegin.tpCol) ≤ s.tek.winsize.tpCol) :
    ∃ pp', funcsCopy s r p = .ok { s with pp := pp' } ∧
      Win s.tek.winsize pp' (sc.copy r p) := by
  have hrows := h.row_le
  have hcols := h.col_le
  obtain ⟨pp', hrun, hs⟩ := @Shows.copy s.pp sc h.shows r p
    ⟨⟨hrow.le, by omega⟩, hcol.le, by omega⟩
    ⟨⟨Nat.le_add_right _ _, le_trans hto hrows⟩, Nat.le_add_right _ _, le_trans htoCol hcols⟩
  refine ⟨pp', ?_, h.redraw hs rfl rfl⟩
  rw [funcsCopy, decide_eq_true hrow, decide_eq_true hrowEnd, decide_eq_true hcol,
    decide_eq_true hcolEnd, decide_eq_true hto, decide_eq_true htoCol]
  exact (bind_eq_ok (x := termCopy s.pp r p)).mpr ⟨pp', hrun, rfl⟩

theorem putchar_spec (h : Win s.tek.winsize s.pp sc) {p : Pos} (c : UInt32)
    (hrow : p.tpRow < s.tek.winsize.tpRow) (hcol : p.tpCol < s.tek.winsize.tpCol) :
    ∃ pp', funcsPutchar s p c = .ok { s with pp := pp' } ∧
      Win s.tek.winsize pp' (sc.draw (fun i j => i = p.tpRow ∧ j = p.tpCol) (.ofChar c)) := by
  have hon : TermOp.On s.pp (.putchar p c) := ⟨hrow.trans_le h.row_le, hcol.trans_le h.col_le⟩
  obtain ⟨pp', hrun, hs⟩ := TermOp.refines h.shows hon
  refine ⟨pp', ?_, h.redraw hs rfl rfl⟩
  rw [funcsPutchar, decide_eq_true hrow, decide_eq_true hcol]
  exact (bind_eq_ok (x := termPutchar s.pp p c)).mpr ⟨pp', hrun, rfl⟩

theorem resize_spec {s : Emu} {sc : Screen} (h : s.pp = {} ∧ sc = .none ∨ Shows s.pp sc)
    {lin col : Nat} (hlin : 0 < lin % 65536) (hcol : 0 < col % 65536) :
    ∃ pp', s.resize lin col =
        .ok { s with pp := pp', tek := setWinsize s.tek ⟨lin % 65536, col % 65536⟩ } ∧
      Win ⟨lin % 65536, col % 65536⟩ pp' (sc.resize lin col) := by
  obtain ⟨pp', hrun, hs, _⟩ := termResize_shows h lin col
  refine ⟨pp', ?_, ⟨hs, ?_, ?_, hlin, hcol⟩⟩
  · exact bind_eq_ok.mpr ⟨pp', hrun, rfl⟩
  · rw [hs.nlin]
    rfl
  · rw [hs.ncol]
    rfl

end

/-! ## What always holds -/

/-- The cursors and the regions are in the window, and the arguments in their range. A line has to
hold one more character than the widest is wide, as the cursor stays behind what has been wrapped to
the next line. The number of places on the screen is computed as an `int`. Nobody asks for
characters of eight bits. -/
structure Placed (t : Teken) : Prop where
  row_ge : t.originreg.tsBegin ≤ t.cursor.tpRow
  row_lt : t.cursor.tpRow < t.originreg.tsEnd
  col_lt : t.cursor.tpCol < t.winsize.tpCol
  saved_row : t.savedCursor.tpRow < t.winsize.tpRow
  saved_col : t.savedCursor.tpCol < t.winsize.tpCol
  scroll_lt : t.scrollreg.tsBegin < t.scrollreg.tsEnd
  scroll_le : t.scrollreg.tsEnd ≤ t.winsize.tpRow
  origin : t.originreg = if t.origin then t.scrollreg else ⟨0, t.winsize.tpRow⟩
  nums : ∀ i, t.nums i ≤ numMax
  wide : 3 ≤ t.winsize.tpCol
  area : t.winsize.tpRow * t.winsize.tpCol < 2 ^ 31
  utf8 : t.bit8 = false

/-- What a subroutine leaves alone: the sequence that is being read. -/
structure SameSeq (t t' : Teken) : Prop where
  nextstate : t'.nextstate = t.nextstate
  nums : t'.nums = t.nums
  curnum : t'.curnum = t.curnum

theorem SameSeq.refl (t : Teken) : SameSeq t t := ⟨rfl, rfl, rfl⟩

/-- The state between two subroutines. -/
structure Good (s : Emu) : Prop where
  win : ∃ sc, Win s.tek.winsize s.pp sc
  placed : Placed s.tek

theorem Good.redraw {s : Emu} (h : Good s) {pp : Process} {sc : Screen}
    (hw : Win s.tek.winsize pp sc) : Good { s with pp := pp } := ⟨⟨sc, hw⟩, h.placed⟩

theorem Good.upd {s : Emu} (h : Good s) {f : Teken → Teken}
    (hw : (f s.tek).winsize = s.tek.winsize) (hp : Placed (f s.tek)) : Good (s.upd f) := by
  obtain ⟨sc, hwin⟩ := h.win
  exact ⟨⟨sc, by rw [show (s.upd f).tek.winsize = s.tek.winsize from hw]; exact hwin⟩, hp⟩

theorem Placed.origin_le {t : Teken} (h : Placed t) : t.originreg.tsEnd ≤ t.winsize.tpRow := by
  rw [h.origin]
  split
  · exact h.scroll_le
  · exact Nat.le_refl _

theorem Placed.row_win {t : Teken} (h : Placed t) : t.cursor.tpRow < t.winsize.tpRow :=
  h.row_lt.trans_le h.origin_le

/-- A row of the scrolling region is one of the region of the cursor. -/
theorem Placed.scroll_row {t : Teken} (h : Placed t) {row : Nat} (hge : t.scrollreg.tsBegin ≤ row)
    (hlt : row < t.scrollreg.tsEnd) : t.originreg.tsBegin ≤ row ∧ row < t.originreg.tsEnd := by
  have hle := h.scroll_le
  rw [h.origin]
  split
  · exact ⟨hge, hlt⟩
  · exact ⟨Nat.zero_le _, by show row < t.winsize.tpRow; omega⟩

theorem Placed.scroll_last {t : Teken} (h : Placed t) :
    t.originreg.tsBegin ≤ t.scrollreg.tsEnd - 1 ∧ t.scrollreg.tsEnd - 1 < t.originreg.tsEnd := by
  have hlt := h.scroll_lt
  exact h.scroll_row (by omega) (by omega)

/-- A row that is not below the scrolling region, if the cursor was not. -/
theorem Placed.down_row {t : Teken} (h : Placed t) {row : Nat} (hge : t.cursor.tpRow ≤ row)
    (hlt : row < t.winsize.tpRow)
    (hin : t.cursor.tpRow < t.scrollreg.tsEnd → row < t.scrollreg.tsEnd) :
    t.originreg.tsBegin ≤ row ∧ row < t.originreg.tsEnd := by
  have h1 := h.row_ge
  have h2 := h.row_lt
  rw [h.origin] at h1 h2 ⊢
  split at h1 <;> rename_i ho
  · rw [if_pos ho] at h2 ⊢
    exact ⟨h1.trans hge, hin h2⟩
  · rw [if_neg ho]
    exact ⟨Nat.zero_le _, hlt⟩

theorem Placed.move {t : Teken} (h : Placed t) {row col : Nat} (wrapped : Bool)
    (hrow : t.originreg.tsBegin ≤ row ∧ row < t.originreg.tsEnd) (hcol : col < t.winsize.tpCol) :
    Placed { t with cursor := ⟨row, col⟩, wrapped := wrapped } :=
  { h with row_ge := hrow.1, row_lt := hrow.2, col_lt := hcol }

/-- The subroutine returns, and all is well again. -/
def Safe (s : Emu) (x : Res Emu) : Prop :=
  Yields (fun s' => Good s' ∧ SameSeq s.tek s'.tek) x

/-- The subroutine returns, and has only drawn. -/
def Draws (s : Emu) (x : Res Emu) : Prop :=
  Yields (fun s' => ∃ pp sc, s' = { s with pp := pp } ∧ Win s.tek.winsize pp sc) x

namespace Safe

variable {s : Emu} {x : Res Emu}

theorem upd (h : Good s) {f : Teken → Teken} (hw : (f s.tek).winsize = s.tek.winsize)
    (hp : Placed (f s.tek)) (hs : SameSeq s.tek (f s.tek)) : Safe s (.ok (s.upd f)) :=
  .ok ⟨h.upd hw hp, hs⟩

theorem skip (h : Good s) : Safe s (.ok s) := .ok ⟨h, .refl _⟩

theorem bind {f : Emu → Res Emu} (hx : Safe s x) (hf : ∀ s', Good s' → Safe s' (f s')) :
    Safe s (x >>= f) := by
  refine Yields.bind hx fun s' h => (hf s' h.1).mono fun s'' h' => ⟨h'.1, ?_⟩
  exact ⟨h'.2.nextstate.trans h.2.nextstate, h'.2.nums.trans h.2.nums,
    h'.2.curnum.trans h.2.curnum⟩

end Safe

namespace Draws

variable {s : Emu} {x : Res Emu}

theorem skip (h : ∃ sc, Win s.tek.winsize s.pp sc) : Draws s (.ok s) := by
  obtain ⟨sc, h⟩ := h
  exact .ok ⟨s.pp, sc, rfl, h⟩

theorem bind {f : Emu → Res Emu} (hx : Draws s x)
    (hf : ∀ pp, (∃ sc, Win s.tek.winsize pp sc) →
      Draws { s with pp := pp } (f { s with pp := pp })) : Draws s (x >>= f) := by
  refine Yields.bind hx ?_
  rintro _ ⟨pp, sc, rfl, hw⟩
  exact hf pp ⟨sc, hw⟩

theorem safe (h : Good s) (hx : Draws s x) : Safe s x := by
  refine Yields.mono hx ?_
  rintro _ ⟨pp, sc, rfl, hw⟩
  exact ⟨h.redraw hw, .refl _⟩

/-- After drawing, the subroutine goes on from a state that differs in the screen only. -/
theorem bind_yields {P : Emu → Prop} {f : Emu → Res Emu} (hx : Draws s x)
    (hf : ∀ pp, (∃ sc, Win s.tek.winsize pp sc) → Yields P (f { s with pp := pp })) :
    Yields P (x >>= f) := by
  refine Yields.bind hx ?_
  rintro _ ⟨pp, sc, rfl, hw⟩
  exact hf pp ⟨sc, hw⟩

theorem fill (h : ∃ sc, Win s.tek.winsize s.pp sc) {r : Rect} (c : UInt32)
    (hrow : r.trBegin.tpRow < r.trEnd.tpRow) (hrowEnd : r.trEnd.tpRow ≤ s.tek.winsize.tpRow)
    (hcol : r.trBegin.tpCol < r.trEnd.tpCol) (hcolEnd : r.trEnd.tpCol ≤ s.tek.winsize.tpCol) :
    Draws s (funcsFill s r c) := by
  obtain ⟨sc, h⟩ := h
  obtain ⟨pp, hrun, hw⟩ := fill_spec h c hrow hrowEnd hcol hcolEnd
  rw [hrun]
  exact .ok ⟨pp, _, rfl, hw⟩

theorem copy (h : ∃ sc, Win s.tek.winsize s.pp sc) {r : Rect} {p : Pos}
    (hrow : r.trBegin.tpRow < r.trEnd.tpRow) (hrowEnd : r.trEnd.tpRow ≤ s.tek.winsize.tpRow)
    (hcol : r.trBegin.tpCol < r.trEnd.tpCol) (hcolEnd : r.trEnd.tpCol ≤ s.tek.winsize.tpCol)
    (hto : p.tpRow + (r.trEnd.tpRow - r.trBegin.tpRow) ≤ s.tek.winsize.tpRow)
    (htoCol : p.tpCol + (r.trEnd.tpCol - r.trBegin.tpCol) ≤ s.tek.winsize.tpCol) :
    Draws s (funcsCopy s r p) := by
  obtain ⟨sc, h⟩ := h
  obtain ⟨pp, hrun, hw⟩ := copy_spec h hrow hrowEnd hcol hcolEnd hto htoCol
  rw [hrun]
  exact .ok ⟨pp, _, rfl, hw⟩

theorem putchar (h : ∃ sc, Win s.tek.winsize s.pp sc) {p : Pos} (c : UInt32)
    (hrow : p.tpRow < s.tek.winsize.tpRow) (hcol : p.tpCol < s.tek.winsize.tpCol) :
    Draws s (funcsPutchar s p c) := by
  obtain ⟨sc, h⟩ := h
  obtain ⟨pp, hrun, hw⟩ := putchar_spec h c hrow hcol
  rw [hrun]
  exact .ok ⟨pp, _, rfl, hw⟩

end Draws

theorem funcsCursor_eq {s : Emu} (hrow : s.tek.cursor.tpRow < s.tek.winsize.tpRow)
    (hcol : s.tek.cursor.tpCol < s.tek.winsize.tpCol) : funcsCursor s = .ok s := by
  rw [funcsCursor, decide_eq_true hrow, decide_eq_true hcol]
  rfl

/-! ## Subroutines -/

section

variable {s : Emu}

theorem Good.cursor (h : Good s) : Safe s (funcsCursor s) := by
  rw [funcsCursor_eq h.placed.row_win h.placed.col_lt]
  exact .skip h

/-- A change of the emulation, with the cursor said last. -/
theorem Safe.cursor (h : Good s) {f : Teken → Teken} (hw : (f s.tek).winsize = s.tek.winsize)
    (hp : Placed (f s.tek)) (hs : SameSeq s.tek (f s.tek)) : Safe s (funcsCursor (s.upd f)) :=
  have hup := Safe.upd h hw hp hs
  (Safe.bind hup fun _ h' => h'.cursor : Safe s (.ok (s.upd f) >>= funcsCursor))

theorem moveTo_safe (h : Good s) {row col : Nat}
    (hrow : s.tek.originreg.tsBegin ≤ row ∧ row < s.tek.originreg.tsEnd)
    (hcol : col < s.tek.winsize.tpCol) : Safe s (moveTo s row col) :=
  .cursor h rfl (h.placed.move false hrow hcol) ⟨rfl, rfl, rfl⟩

/-- The region of the cursor has a first row. -/
theorem Placed.origin_lt {t : Teken} (h : Placed t) : t.originreg.tsBegin < t.originreg.tsEnd :=
  h.row_ge.trans_lt h.row_lt

theorem setCol_safe (h : Good s) {col : Nat} (hcol : col < s.tek.winsize.tpCol) :
    Safe s (.ok (setCol s col)) :=
  .upd h rfl (h.placed.move s.tek.wrapped ⟨h.placed.row_ge, h.placed.row_lt⟩ hcol) ⟨rfl, rfl, rfl⟩

theorem backspace_safe (h : Good s) : Safe s (backspace s) := by
  have hge := h.placed.row_ge
  have hlt := h.placed.row_lt
  have hcol := h.placed.col_lt
  unfold backspace
  dsimp only
  split
  · split
    · split
      · exact .skip h
      · exact .cursor h rfl (h.placed.move _ ⟨by omega, by omega⟩ (by omega)) ⟨rfl, rfl, rfl⟩
    · exact .cursor h rfl (h.placed.move s.tek.wrapped ⟨hge, hlt⟩ (by omega)) ⟨rfl, rfl, rfl⟩
  · split
    · exact .skip h
    · exact moveTo_safe h ⟨hge, hlt⟩ (by omega)

theorem doScroll_draws (h : ∃ sc, Win s.tek.winsize s.pp sc)
    (hcur : s.tek.cursor.tpRow ≤ s.tek.winsize.tpRow)
    (hlt : s.tek.scrollreg.tsBegin < s.tek.scrollreg.tsEnd)
    (hle : s.tek.scrollreg.tsEnd ≤ s.tek.winsize.tpRow) {amount : Int} (ha : amount ≠ 0) :
    Draws s (doScroll s amount) := by
  have hw : 0 < s.tek.winsize.tpCol := by
    obtain ⟨sc, h⟩ := h
    exact h.col_pos
  refine .check_bind (decide_eq_true hcur) (.check_bind (decide_eq_true hle)
    (.check_bind (decide_eq_true ha) ?_))
  split
  · unfold doScrollDown
    dsimp only
    split
    · refine Draws.bind (.copy h ?_ hle hw (Nat.le_refl _) ?_ ?_) fun pp hpp =>
        Draws.fill hpp _ ?_ hle hw (Nat.le_refl _) <;> dsimp only <;> omega
    · exact Draws.fill h _ hlt hle hw (Nat.le_refl _)
  · unfold doScrollUp
    dsimp only
    split
    · refine Draws.bind (.copy h ?_ ?_ hw (Nat.le_refl _) ?_ ?_) fun pp hpp =>
        Draws.fill hpp _ ?_ ?_ hw (Nat.le_refl _) <;> dsimp only <;> omega
    · exact Draws.fill h _ hlt hle hw (Nat.le_refl _)

theorem Good.scroll (h : Good s) {amount : Int} (ha : amount ≠ 0) : Safe s (doScroll s amount) :=
  Draws.safe h (doScroll_draws h.win h.placed.row_win.le h.placed.scroll_lt h.placed.scroll_le ha)

theorem newline_safe (h : Good s) : Safe s (newline s) := by
  have hrow := h.placed.row_win
  have hlt := h.placed.scroll_lt
  unfold newline
  dsimp only
  split
  · refine Draws.bind_yields (@doScroll_draws (s.upd fun t =>
      { t with cursor := ⟨t.cursor.tpRow + 1, t.cursor.tpCol⟩ }) h.win hrow hlt
      h.placed.scroll_le 1 (by decide)) fun pp hpp => ?_
    -- the row of the cursor is overwritten, so it may have been that behind the last
    have hg : Good { s with pp := pp } := ⟨hpp, h.placed⟩
    exact moveTo_safe hg h.placed.scroll_last h.placed.col_lt
  · refine moveTo_safe h (h.placed.down_row (Nat.le_succ _) ?_ fun _ => ?_) h.placed.col_lt
    · have := h.placed.scroll_le
      omega
    · omega

theorem carriageReturn_safe (h : Good s) : Safe s (carriageReturn s) :=
  moveTo_safe h ⟨h.placed.row_ge, h.placed.row_lt⟩ (Nat.zero_lt_of_lt h.placed.col_lt)

theorem cursorBackward_safe (h : Good s) (ncols : Nat) : Safe s (cursorBackward s ncols) := by
  have hcol := h.placed.col_lt
  refine moveTo_safe h ⟨h.placed.row_ge, h.placed.row_lt⟩ ?_
  split <;> omega

theorem backwardTab_le (t : Teken) (col ntabs : Nat) : backwardTab t col ntabs ≤ col := by
  induction col generalizing ntabs with
  | zero => exact Nat.le_refl _
  | succ col ih =>
    rw [backwardTab]
    generalize (if tabIsset t col then ntabs - 1 else ntabs) = n
    by_cases hn : n > 0
    · rw [if_pos hn]
      exact (ih n).trans (Nat.le_succ col)
    · rw [if_neg hn]
      exact Nat.le_succ col

theorem forwardTab_le (t : Teken) (left col ntabs : Nat) :
    forwardTab t left col ntabs ≤ col + left := by
  induction left generalizing col ntabs with
  | zero => exact Nat.le_refl _
  | succ left ih =>
    rw [forwardTab]
    generalize (if tabIsset t (col + 1) then ntabs - 1 else ntabs) = n
    by_cases hn : n > 0
    · rw [if_pos hn]
      exact (ih (col + 1) n).trans (by omega)
    · rw [if_neg hn]
      omega

theorem cursorBackwardTabulation_safe (h : Good s) (ntabs : Nat) :
    Safe s (cursorBackwardTabulation s ntabs) :=
  Safe.bind (setCol_safe h ((backwardTab_le _ _ _).trans_lt h.placed.col_lt)) fun _ h' => h'.cursor

theorem cursorForwardTabulation_safe (h : Good s) (ntabs : Nat) :
    Safe s (cursorForwardTabulation s ntabs) := by
  have hcol := h.placed.col_lt
  have hle := forwardTab_le s.tek (s.tek.winsize.tpCol - 1 - s.tek.cursor.tpCol) s.tek.cursor.tpCol
    ntabs
  exact Safe.bind (setCol_safe h (by omega)) fun _ h' => h'.cursor

theorem cursorDown_safe (h : Good s) (nrows : Nat) : Safe s (cursorDown s nrows) := by
  refine moveTo_safe h ?_ h.placed.col_lt
  have hle := h.placed.scroll_le
  split
  · exact h.placed.scroll_last
  · exact h.placed.down_row (Nat.le_add_right _ _) (by omega) fun _ => by omega

theorem cursorForward_safe (h : Good s) (ncols : Nat) : Safe s (cursorForward s ncols) := by
  have hcol := h.placed.col_lt
  refine moveTo_safe h ⟨h.placed.row_ge, h.placed.row_lt⟩ ?_
  split <;> omega

theorem cursorUp_safe (h : Good s) (nrows : Nat) : Safe s (cursorUp s nrows) := by
  refine moveTo_safe h ?_ h.placed.col_lt
  split
  · exact h.placed.scroll_row (Nat.le_refl _) h.placed.scroll_lt
  · -- above the cursor, and not above the scrolling region
    have hge := h.placed.row_ge
    have hlt := h.placed.row_lt
    have ho := h.placed.origin
    refine ⟨?_, by omega⟩
    rw [ho]
    split
    · omega
    · exact Nat.zero_le _

theorem Placed.zero_col {t : Teken} (h : Placed t) : 0 < t.winsize.tpCol :=
  Nat.zero_lt_of_lt h.col_lt

theorem cursorNextLine_safe (h : Good s) (ncols : Nat) : Safe s (cursorNextLine s ncols) :=
  Safe.bind (setCol_safe h h.placed.zero_col) fun _ h' => cursorDown_safe h' ncols

theorem cursorPreviousLine_safe (h : Good s) (ncols : Nat) : Safe s (cursorPreviousLine s ncols) :=
  Safe.bind (setCol_safe h h.placed.zero_col) fun _ h' => cursorUp_safe h' ncols

theorem Placed.absRow {t : Teken} (h : Placed t) (row : Nat) :
    t.originreg.tsBegin ≤ absRow t row ∧ absRow t row < t.originreg.tsEnd := by
  have hlt := h.origin_lt
  unfold Term.absRow
  dsimp only
  split <;> omega

theorem Placed.absCol {t : Teken} (h : Placed t) (col : Nat) : absCol t col < t.winsize.tpCol := by
  have hlt := h.zero_col
  unfold Term.absCol
  split <;> omega

theorem index_safe (h : Good s) : Safe s (index s) := by
  unfold index
  split
  · have hle := h.placed.scroll_le
    exact moveTo_safe h (h.placed.down_row (Nat.le_succ _) (by omega) fun _ => by omega)
      h.placed.col_lt
  · exact h.scroll (by decide)

theorem reverseIndex_safe (h : Good s) : Safe s (reverseIndex s) := by
  unfold reverseIndex
  split
  · have hge := h.placed.row_ge
    have hlt := h.placed.row_lt
    refine moveTo_safe h ⟨?_, by omega⟩ h.placed.col_lt
    rw [h.placed.origin]
    split
    · omega
    · exact Nat.zero_le _
  · exact h.scroll (by decide)

theorem nextLine_safe (h : Good s) : Safe s (nextLine s) :=
  Safe.bind (setCol_safe h h.placed.zero_col) fun _ h' => newline_safe h'

theorem newpage_safe (h : Good s) : Safe s (newpage s) := by
  unfold newpage
  split
  · refine Draws.bind_yields (Draws.fill h.win blank h.placed.origin_lt h.placed.origin_le
      h.placed.zero_col (Nat.le_refl _)) fun pp hpp => ?_
    have hg : Good { s with pp := pp } := ⟨hpp, h.placed⟩
    exact moveTo_safe hg ⟨Nat.le_refl _, h.placed.origin_lt⟩ h.placed.zero_col
  · exact newline_safe h

theorem restoreCursor_safe (h : Good s) : Safe s (restoreCursor s) := by
  have hp := h.placed
  -- the character set that is restored is in neither condition
  have key : ∀ t : Teken, t.winsize = s.tek.winsize → t.savedCursor = s.tek.savedCursor →
      t.scrollreg = s.tek.scrollreg → t.originreg = s.tek.originreg → t.origin = s.tek.origin →
      t.nums = s.tek.nums → t.bit8 = s.tek.bit8 → t.cursor = s.tek.savedCursor →
      Placed (if t.cursor.tpRow < t.originreg.tsBegin ∨ t.cursor.tpRow ≥ t.originreg.tsEnd then
        { t with origin := false, originreg := ⟨0, t.winsize.tpRow⟩ } else t) := by
    intro t hw hsv hsr hor ho hn hb hc
    have hrow := hp.saved_row
    have hcol := hp.saved_col
    have hlt := hp.scroll_lt
    have hle := hp.scroll_le
    have horg := hp.origin
    rw [← hw] at hrow hcol hle horg
    rw [← hsr] at hlt hle horg
    rw [← hor, ← ho] at horg
    rw [← hsv] at hrow hcol hc
    have hnums : ∀ i, t.nums i ≤ numMax := fun i => by rw [hn]; exact hp.nums i
    have hwide := hp.wide
    have harea := hp.area
    rw [← hw] at hwide harea
    split
    · refine ⟨Nat.zero_le _, ?_, ?_, hrow, hcol, hlt, hle, rfl, hnums, hwide, harea,
        hb.trans hp.utf8⟩
      · show t.cursor.tpRow < t.winsize.tpRow
        rw [hc]
        exact hrow
      · show t.cursor.tpCol < t.winsize.tpCol
        rw [hc]
        exact hcol
    · refine ⟨by omega, by omega, ?_, hrow, hcol, hlt, hle, horg, hnums, hwide, harea,
        hb.trans hp.utf8⟩
      rw [hc]
      exact hcol
  unfold restoreCursor
  refine Safe.cursor h ?_ ?_ ?_
  · dsimp only
    split <;> split <;> rfl
  · dsimp only
    split
    · exact key _ rfl rfl rfl rfl rfl rfl rfl rfl
    · exact key _ rfl rfl rfl rfl rfl rfl rfl rfl
  · dsimp only
    split <;> split <;> exact ⟨rfl, rfl, rfl⟩

theorem setTopAndBottomMargins_safe (h : Good s) (top bottom : Nat) :
    Safe s (setTopAndBottomMargins s top bottom) := by
  have hp := h.placed
  have hwin : 0 < s.tek.winsize.tpRow := Nat.zero_lt_of_lt hp.row_win
  unfold setTopAndBottomMargins
  dsimp only
  generalize htop : (if top > 0 then top - 1 else top) = top'
  generalize hbot : (if bottom = 0 ∨ bottom > s.tek.winsize.tpRow then s.tek.winsize.tpRow
    else bottom) = bottom'
  generalize hreg : (if top' ≥ bottom' - 1 then (⟨0, s.tek.winsize.tpRow⟩ : Span)
    else ⟨top', bottom'⟩) = reg
  have hbot' : bottom' ≤ s.tek.winsize.tpRow := by
    rw [← hbot]
    split <;> omega
  have hreg' : reg.tsBegin < reg.tsEnd ∧ reg.tsEnd ≤ s.tek.winsize.tpRow := by
    rw [← hreg]
    split
    · exact ⟨hwin, Nat.le_refl _⟩
    · exact ⟨by dsimp only; omega, hbot'⟩
  refine Safe.cursor (f := fun t => { t with
    scrollreg := reg
    originreg := if t.origin then reg else t.originreg
    cursor := ⟨(if t.origin then reg else t.originreg).tsBegin, 0⟩
    wrapped := false }) h rfl ?_ ⟨rfl, rfl, rfl⟩
  have hor : (if s.tek.origin then reg else s.tek.originreg) =
      if s.tek.origin then reg else ⟨0, s.tek.winsize.tpRow⟩ := by
    split
    · rfl
    · rename_i ho
      rw [hp.origin, if_neg ho]
  have hlt : (if s.tek.origin then reg else s.tek.originreg).tsBegin <
      (if s.tek.origin then reg else s.tek.originreg).tsEnd := by
    rw [hor]
    split
    · exact hreg'.1
    · exact hwin
  exact
    { hp with
      row_ge := Nat.le_refl _
      row_lt := hlt
      col_lt := hp.zero_col
      scroll_lt := hreg'.1
      scroll_le := hreg'.2
      origin := hor }

/-! ## Subroutines that draw -/

theorem alignmentTest_safe (h : Good s) : Safe s (alignmentTest s) := by
  have hwin : 0 < s.tek.winsize.tpRow := Nat.zero_lt_of_lt h.placed.row_win
  refine Safe.bind (Safe.cursor h rfl ?_ ⟨rfl, rfl, rfl⟩) fun s' h' => ?_
  · exact
      { h.placed with
        row_ge := Nat.zero_le _
        row_lt := hwin
        col_lt := h.placed.zero_col
        scroll_lt := hwin
        scroll_le := Nat.le_refl _
        origin := rfl }
  · have hwin' : 0 < s'.tek.winsize.tpRow := Nat.zero_lt_of_lt h'.placed.row_win
    exact Draws.safe h' (.fill h'.win _ hwin' (Nat.le_refl _) h'.placed.zero_col (Nat.le_refl _))

theorem deleteCharacter_safe (h : Good s) {ncols : Nat} (hn : 0 < ncols) :
    Safe s (deleteCharacter s ncols) := by
  have hrow := h.placed.row_win
  have hcol := h.placed.col_lt
  refine Draws.safe h ?_
  unfold deleteCharacter
  dsimp only
  split
  · exact .fill h.win _ (Nat.lt_succ_self _) hrow hcol (Nat.le_refl _)
  · refine Draws.bind (.copy h.win (Nat.lt_succ_self _) hrow ?_ (Nat.le_refl _) ?_ ?_) fun pp hpp =>
      Draws.fill hpp _ (Nat.lt_succ_self _) hrow ?_ (Nat.le_refl _) <;> dsimp only <;> omega

theorem insertCharacter_safe (h : Good s) {ncols : Nat} (hn : 0 < ncols) :
    Safe s (insertCharacter s ncols) := by
  have hrow := h.placed.row_win
  have hcol := h.placed.col_lt
  refine Draws.safe h ?_
  unfold insertCharacter
  dsimp only
  split
  · exact .fill h.win _ (Nat.lt_succ_self _) hrow hcol (Nat.le_refl _)
  · refine Draws.bind (.copy h.win (Nat.lt_succ_self _) hrow ?_ ?_ ?_ ?_) fun pp hpp =>
      Draws.fill hpp _ (Nat.lt_succ_self _) hrow ?_ ?_ <;> dsimp only <;> omega

theorem deleteLine_safe (h : Good s) {nrows : Nat} (hn : 0 < nrows) :
    Safe s (deleteLine s nrows) := by
  have hle := h.placed.scroll_le
  have hcol := h.placed.zero_col
  refine Draws.safe h ?_
  unfold deleteLine
  dsimp only
  split
  · exact .skip h.win
  · split
    · exact .fill h.win _ (by dsimp only; omega) hle hcol (Nat.le_refl _)
    · refine Draws.bind (.copy h.win ?_ hle hcol (Nat.le_refl _) ?_ ?_) fun pp hpp =>
        Draws.fill hpp _ ?_ hle hcol (Nat.le_refl _) <;> dsimp only <;> omega

theorem insertLine_safe (h : Good s) {nrows : Nat} (hn : 0 < nrows) :
    Safe s (insertLine s nrows) := by
  have hle := h.placed.scroll_le
  have hcol := h.placed.zero_col
  refine Draws.safe h ?_
  unfold insertLine
  dsimp only
  split
  · exact .skip h.win
  · split
    · exact .fill h.win _ (by dsimp only; omega) hle hcol (Nat.le_refl _)
    · refine Draws.bind (.copy h.win ?_ ?_ hcol (Nat.le_refl _) ?_ ?_) fun pp hpp =>
        Draws.fill hpp _ ?_ ?_ hcol (Nat.le_refl _) <;> dsimp only <;> omega

theorem eraseCharacter_safe (h : Good s) {ncols : Nat} (hn : 0 < ncols) :
    Safe s (eraseCharacter s ncols) := by
  have hcol := h.placed.col_lt
  refine Draws.safe h (.fill h.win _ (Nat.lt_succ_self _) h.placed.row_win ?_ ?_) <;> dsimp only <;>
    split <;> omega

theorem eraseLine_draws (h : Good s) (mode : Nat) : Draws s (eraseLine s mode) := by
  have hrow := h.placed.row_win
  have hcol := h.placed.col_lt
  unfold eraseLine
  dsimp only
  split
  · exact .fill h.win _ (Nat.lt_succ_self _) hrow (Nat.succ_pos _) hcol
  · exact .fill h.win _ (Nat.lt_succ_self _) hrow h.placed.zero_col (Nat.le_refl _)
  · exact .fill h.win _ (Nat.lt_succ_self _) hrow hcol (Nat.le_refl _)

theorem eraseDisplay_draws (h : Good s) (mode : Nat) : Draws s (eraseDisplay s mode) := by
  have hrow := h.placed.row_win
  have hcol := h.placed.zero_col
  unfold eraseDisplay
  dsimp only
  split
  · refine Draws.bind (eraseLine_draws h 1) fun pp hpp => ?_
    split
    · exact .skip hpp
    · exact .fill hpp _ (by dsimp only; omega) hrow.le hcol (Nat.le_refl _)
  · exact .fill h.win _ (Nat.zero_lt_of_lt hrow) (Nat.le_refl _) hcol (Nat.le_refl _)
  · refine Draws.bind (eraseLine_draws h 0) fun pp hpp => ?_
    split
    · exact .skip hpp
    · rename_i hne
      have hne' : s.tek.cursor.tpRow ≠ s.tek.winsize.tpRow - 1 := hne
      exact .fill hpp _ (by dsimp only; omega) (Nat.le_refl _) hcol (Nat.le_refl _)

theorem doReset_placed {t : Teken} (hrow : 0 < t.winsize.tpRow) (hcol : 3 ≤ t.winsize.tpCol)
    (harea : t.winsize.tpRow * t.winsize.tpCol < 2 ^ 31) (hn : ∀ i, t.nums i ≤ numMax)
    (hb : t.bit8 = false) : Placed (doReset t) where
  row_ge := Nat.zero_le _
  row_lt := hrow
  col_lt := Nat.zero_lt_of_lt hcol
  saved_row := hrow
  saved_col := Nat.zero_lt_of_lt hcol
  scroll_lt := hrow
  scroll_le := Nat.le_refl _
  origin := rfl
  nums := hn
  wide := hcol
  area := harea
  utf8 := hb

theorem resetToInitialState_safe (h : Good s) : Safe s (resetToInitialState s) := by
  have hg : Safe s (.ok (s.upd doReset)) :=
    .upd h rfl (doReset_placed (Nat.zero_lt_of_lt h.placed.row_win) h.placed.wide h.placed.area
      h.placed.nums h.placed.utf8) ⟨rfl, rfl, rfl⟩
  exact Safe.bind (Safe.bind hg fun s' h' => Draws.safe h' (eraseDisplay_draws h' 2))
    fun s' h' => h'.cursor

theorem resize_safe (h : Good s) {lin col : Nat} (hlin : 0 < lin % 65536)
    (hcol : 3 ≤ col % 65536) (harea : lin % 65536 * (col % 65536) < 2 ^ 31) :
    Safe s (s.resize lin col) := by
  obtain ⟨sc, hw⟩ := h.win
  obtain ⟨pp, hrun, hw'⟩ := @resize_spec s sc (Or.inr hw.shows) lin col hlin (by omega)
  rw [hrun]
  have hkept : (∀ i, (trimCursorPos s.tek ⟨lin % 65536, col % 65536⟩).nums i ≤ numMax) ∧
      (trimCursorPos s.tek ⟨lin % 65536, col % 65536⟩).bit8 = false := by
    unfold trimCursorPos
    split <;> exact ⟨h.placed.nums, h.placed.utf8⟩
  refine .ok ⟨⟨⟨_, hw'⟩, doReset_placed hlin hcol harea hkept.1 hkept.2⟩, ?_⟩
  unfold setWinsize trimCursorPos
  split <;> exact ⟨rfl, rfl, rfl⟩

theorem funcsParam132_safe (h : Good s) (v : Bool) : Safe s (funcsParam132 s v) := by
  obtain ⟨sc, hw⟩ := h.win
  have hrow := hw.row_pos
  rw [hw.row] at hrow
  have hlt : s.pp.nlin % 65536 < 65536 := Nat.mod_lt _ (by decide)
  cases v with
  | false =>
    have harea : s.pp.nlin % 65536 * (80 % 65536) < 2 ^ 31 := by omega
    exact resize_safe h hrow (by decide) harea
  | true =>
    have harea : s.pp.nlin % 65536 * (132 % 65536) < 2 ^ 31 := by omega
    exact resize_safe h hrow (by decide) harea

theorem resetDecMode_safe (h : Good s) (cmd : Nat) : Safe s (resetDecMode s cmd) := by
  have hp := h.placed
  have hwin : 0 < s.tek.winsize.tpRow := Nat.zero_lt_of_lt hp.row_win
  unfold resetDecMode
  split
  · exact Safe.bind (funcsParam132_safe h false) fun _ h' => resetToInitialState_safe h'
  · refine Safe.cursor (f := fun t => { t with
      origin := false, originreg := ⟨0, t.winsize.tpRow⟩, cursor := ⟨0, 0⟩, wrapped := false })
      h rfl ?_ ⟨rfl, rfl, rfl⟩
    exact { hp with row_ge := Nat.zero_le _, row_lt := hwin, col_lt := hp.zero_col, origin := rfl }
  · exact .upd h rfl { hp with } ⟨rfl, rfl, rfl⟩
  · exact .skip h

theorem setDecMode_safe (h : Good s) (cmd : Nat) : Safe s (setDecMode s cmd) := by
  have hp := h.placed
  unfold setDecMode
  split
  · exact Safe.bind (funcsParam132_safe h true) fun _ h' => resetToInitialState_safe h'
  · refine Safe.cursor (f := fun t => { t with
      origin := true, originreg := t.scrollreg, cursor := ⟨t.scrollreg.tsBegin, 0⟩
      wrapped := false }) h rfl ?_ ⟨rfl, rfl, rfl⟩
    exact { hp with
      row_ge := Nat.le_refl _, row_lt := hp.scroll_lt, col_lt := hp.zero_col, origin := rfl }
  · exact .upd h rfl { hp with } ⟨rfl, rfl, rfl⟩
  · exact .skip h

/-! ## Characters -/

theorem wcwidth_le (c : Nat) : wcwidth c ≤ 2 := by
  unfold wcwidth
  repeat' split
  all_goals decide

theorem printed_width {t : Teken} {c c' width : Nat} (h : printed t c = some (c', width)) :
    width = 1 ∨ width = 2 := by
  unfold printed at h
  split at h
  · split at h
    · cases h
    · cases h
      exact Or.inl rfl
  · dsimp only at h
    split at h
    · cases h
    · cases h
      have hle := wcwidth_le (scsProcess t c)
      omega

theorem doPutchar_draws (h : ∃ sc, Win s.tek.winsize s.pp sc) {tp : Pos} {c width : Nat}
    (hrow : tp.tpRow < s.tek.winsize.tpRow) (hcol : tp.tpCol < s.tek.winsize.tpCol)
    (hw : 0 < width) :
    Draws (s.upd fun t => { t with last := c }) (doPutchar s tp c width) := by
  refine Draws.bind (x := makeRoom _ tp width) ?_ fun pp hpp =>
    Draws.bind (Draws.putchar hpp _ hrow hcol) fun pp hpp => ?_
  · unfold makeRoom
    split
    · rename_i hin
      have hlt : tp.tpCol + width < s.tek.winsize.tpCol := hin.2
      refine @Draws.copy (s.upd fun t => { t with last := c }) h
        ⟨tp, ⟨tp.tpRow + 1, s.tek.winsize.tpCol - width⟩⟩ ⟨tp.tpRow, tp.tpCol + width⟩
        (Nat.lt_succ_self _) hrow ?_ ?_ ?_ ?_ <;> dsimp only [Emu.upd] <;> omega
    · exact .skip h
  · unfold putRight
    split
    · rename_i hin
      exact .putchar hpp _ hrow hin.2
    · exact .skip hpp

theorem doPutchar_safe (h : Good s) {tp : Pos} {c width : Nat}
    (hrow : tp.tpRow < s.tek.winsize.tpRow) (hcol : tp.tpCol < s.tek.winsize.tpCol)
    (hw : 0 < width) : Safe s (doPutchar s tp c width) := by
  refine Yields.mono (doPutchar_draws h.win hrow hcol hw) ?_
  rintro _ ⟨pp, sc, rfl, hpp⟩
  exact ⟨⟨⟨sc, hpp⟩, { h.placed with }⟩, ⟨rfl, rfl, rfl⟩⟩

theorem printCons25_safe (h : Good s) {c width : Nat} (hw : 0 < width) :
    Safe s (printCons25 s c width) := by
  refine Safe.bind (doPutchar_safe h h.placed.row_win h.placed.col_lt hw) fun s h => ?_
  have hp := h.placed
  have hrow := hp.row_win
  dsimp only
  generalize (s.tek.cursor.tpCol + width) % 65536 = col
  split
  · split
    · refine Draws.bind_yields (@doScroll_draws (s.upd fun t =>
        { t with cursor := ⟨t.cursor.tpRow, col⟩ }) h.win hrow.le hp.scroll_lt hp.scroll_le 1
        (by decide)) fun pp hpp => .ok ⟨⟨hpp, ?_⟩, ⟨rfl, rfl, rfl⟩⟩
      exact { hp with col_lt := hp.zero_col }
    · refine Safe.upd h rfl ?_ ⟨rfl, rfl, rfl⟩
      refine hp.move s.tek.wrapped (hp.down_row ?_ ?_ fun hlt => ?_) hp.zero_col <;>
        split <;> omega
  · rename_i hfit
    exact Safe.upd h rfl (hp.move s.tek.wrapped ⟨hp.row_ge, hp.row_lt⟩ (Nat.not_le.mp hfit))
      ⟨rfl, rfl, rfl⟩

theorem toLine_safe (h : Good s) {c width row : Nat} (hw : width = 1 ∨ width = 2)
    (hrow : s.tek.originreg.tsBegin ≤ row ∧ row < s.tek.originreg.tsEnd) :
    Safe s (printWrap.toLine c width s row) := by
  have hp := h.placed
  have hthree := hp.wide
  refine Draws.bind_yields (doPutchar_draws h.win (hrow.2.trans_le hp.origin_le)
    hp.zero_col (by omega)) fun pp hpp => ?_
  have hg : Good { s.upd fun t => { t with last := c } with pp := pp } := ⟨hpp, { hp with }⟩
  have hcol : width < s.tek.winsize.tpCol := by omega
  exact (Safe.cursor hg rfl { hp with row_ge := hrow.1, row_lt := hrow.2, col_lt := hcol }
    ⟨rfl, rfl, rfl⟩).mono fun s' h' => ⟨h'.1, ⟨h'.2.nextstate, h'.2.nums, h'.2.curnum⟩⟩

theorem printWrap_safe (h : Good s) {c width : Nat} (hw : width = 1 ∨ width = 2) :
    Safe s (printWrap s c width) := by
  have hp := h.placed
  have hrow := hp.row_win
  unfold printWrap
  split
  · refine Draws.bind_yields (doScroll_draws h.win hrow.le hp.scroll_lt hp.scroll_le
      (by decide)) fun pp hpp => ?_
    exact toLine_safe (s := { s with pp := pp }) ⟨hpp, hp⟩ hw hp.scroll_last
  · split
    · exact doPutchar_safe h hrow hp.col_lt (by omega)
    · exact toLine_safe h hw (hp.down_row (Nat.le_succ _) (by omega) fun hlt => by omega)

theorem printPlain_safe (h : Good s) {c width : Nat} (hw : 0 < width) :
    Safe s (printPlain s c width) := by
  refine Safe.bind (doPutchar_safe h h.placed.row_win h.placed.col_lt hw) fun s h => ?_
  have hp := h.placed
  refine Safe.cursor h rfl (hp.move _ ⟨hp.row_ge, hp.row_lt⟩ ?_) ⟨rfl, rfl, rfl⟩
  have hcol := hp.zero_col
  split
  · omega
  · rename_i hfit
    exact Nat.not_le.mp fun hle => hfit (decide_eq_true hle)

theorem regularCharacter_safe (h : Good s) (c : Nat) : Safe s (regularCharacter s c) := by
  unfold regularCharacter
  split
  · exact .skip h
  · rename_i c' width hpr
    have hw := printed_width hpr
    split
    · exact Safe.bind (printCons25_safe h (by omega)) fun s' h' => h'.cursor
    · split
      · exact printWrap_safe h hw
      · exact printPlain_safe h (by omega)

theorem repeatLast_safe (rpts : Nat) (h : Good s) : Safe s (repeatLast rpts s) := by
  induction rpts generalizing s with
  | zero => exact .skip h
  | succ rpts ih =>
    rw [repeatLast]
    split
    · exact Safe.bind (regularCharacter_safe h _) fun s' h' => ih h'
    · exact .skip h

theorem repeatLastGraphicChar_safe (h : Good s) (rpts : Nat) :
    Safe s (repeatLastGraphicChar s rpts) := by
  have harea := h.placed.area
  unfold repeatLastGraphicChar
  dsimp only
  rw [if_neg (by omega)]
  exact repeatLast_safe _ h

/-! ## Sequences -/

theorem argN_pos (t : Teken) (a : Nat) : 0 < argN t a := by
  unfold argN
  split <;> omega

theorem respondCpr_safe (h : Good s) (intro : Bytes) (cmd : Nat) :
    Safe s (.ok (respondCpr s intro cmd)) := by
  unfold respondCpr
  split
  · exact .skip h
  · exact .ok ⟨⟨h.win, h.placed⟩, .refl _⟩

theorem tabClearCmd_safe (h : Good s) (cmd : Nat) : Safe s (.ok (tabClearCmd s cmd)) := by
  have hp := h.placed
  unfold tabClearCmd
  split
  · unfold tabClear
    refine .upd h ?_ ?_ ?_ <;> split
    · rfl
    · rfl
    · exact hp
    · exact { hp with }
    · exact .refl _
    · exact ⟨rfl, rfl, rfl⟩
  · exact .upd h rfl { hp with } ⟨rfl, rfl, rfl⟩
  · exact .skip h

theorem Cmd.safe (h : Good s) (cmd : Cmd) : Safe s (cmd.exec s) := by
  have hp := h.placed
  cases cmd with
  | cbt => exact cursorBackwardTabulation_safe h _
  | cht => exact cursorForwardTabulation_safe h _
  | cnl => exact cursorNextLine_safe h _
  | cpl => exact cursorPreviousLine_safe h _
  | cpr => exact respondCpr_safe h _ _
  | cub => exact cursorBackward_safe h _
  | cud => exact cursorDown_safe h _
  | cuf => exact cursorForward_safe h _
  | cup => exact moveTo_safe h (hp.absRow _) (hp.absCol _)
  | cuu => exact cursorUp_safe h _
  | da1 =>
    show Safe s (.ok (if _ then _ else _))
    split
    · exact .ok ⟨⟨h.win, hp⟩, .refl _⟩
    · exact .skip h
  | da2 =>
    show Safe s (.ok (if _ then _ else _))
    split
    · exact .ok ⟨⟨h.win, hp⟩, .refl _⟩
    · exact .skip h
  | dc => exact deleteCharacter_safe h (argN_pos _ _)
  | dcs => exact .upd h rfl { hp with } ⟨rfl, rfl, rfl⟩
  | decaln => exact alignmentTest_safe h
  | decrc => exact restoreCursor_safe h
  | decrm => exact resetDecMode_safe h _
  | decsc =>
    exact .upd h rfl { hp with saved_row := hp.row_win, saved_col := hp.col_lt } ⟨rfl, rfl, rfl⟩
  | decsm => exact setDecMode_safe h _
  | decstbm => exact setTopAndBottomMargins_safe h _ _
  | dl => exact deleteLine_safe h (argN_pos _ _)
  | dsr => exact respondCpr_safe h _ _
  | ech => exact eraseCharacter_safe h (argN_pos _ _)
  | ed => exact Draws.safe h (eraseDisplay_draws h _)
  | el => exact Draws.safe h (eraseLine_draws h _)
  | scs g1 x =>
    cases g1 with
    | false => exact .upd h rfl { hp with } ⟨rfl, rfl, rfl⟩
    | true => exact .upd h rfl { hp with } ⟨rfl, rfl, rfl⟩
  | hpa => exact moveTo_safe h ⟨hp.row_ge, hp.row_lt⟩ (hp.absCol _)
  | hts =>
    show Safe s (.ok (s.upd fun t => tabSet t t.cursor.tpCol))
    unfold tabSet
    refine .upd h ?_ ?_ ?_ <;> split
    · rfl
    · rfl
    · exact hp
    · exact { hp with }
    · exact .refl _
    · exact ⟨rfl, rfl, rfl⟩
  | ich => exact insertCharacter_safe h (argN_pos _ _)
  | il => exact insertLine_safe h (argN_pos _ _)
  | ind => exact index_safe h
  | nel => exact nextLine_safe h
  | osc => exact .upd h rfl { hp with } ⟨rfl, rfl, rfl⟩
  | ri => exact reverseIndex_safe h
  | ris => exact resetToInitialState_safe h
  | rm =>
    show Safe s (.ok (if _ then _ else _))
    split
    · exact .upd h rfl { hp with } ⟨rfl, rfl, rfl⟩
    · exact .skip h
  | sd => exact h.scroll (by have := argN_pos s.tek 1; omega)
  | sm =>
    show Safe s (.ok (if _ then _ else _))
    split
    · exact .upd h rfl { hp with } ⟨rfl, rfl, rfl⟩
    · exact .skip h
  | su => exact h.scroll (by have := argN_pos s.tek 1; omega)
  | tbc => exact tabClearCmd_safe h _
  | vpa => exact moveTo_safe h (hp.absRow _) hp.col_lt
  | c25mode =>
    show Safe s (.ok (setTerminalMode s _))
    unfold setTerminalMode
    split
    · exact .upd h rfl { hp with } ⟨rfl, rfl, rfl⟩
    · exact .upd h rfl { hp with } ⟨rfl, rfl, rfl⟩
    · exact .skip h
  | rep => exact repeatLastGraphicChar_safe h _
  | ignored => exact .skip h

end

/-! ## Bytes -/

/-- The state between two characters. -/
structure Ready (s : Emu) : Prop extends Good s where
  curnum : s.tek.curnum < numSize

theorem Ready.of_safe {s : Emu} (h : Ready s) {x : Res Emu} (hx : Safe s x) : Yields Ready x :=
  Yields.mono hx fun _ h' => ⟨h'.1, by rw [h'.2.curnum]; exact h.curnum⟩

/-- Only what belongs to the sequence that is being read has changed. -/
def ArgsOnly (t t' : Teken) : Prop :=
  ∃ nums curnum first next,
    t' = { t with nums := nums, curnum := curnum, firstdigit := first, nextstate := next }

section

variable {t t' : Teken}

theorem ArgsOnly.placed (h : ArgsOnly t t') (hp : Placed t) (hn : ∀ i, t'.nums i ≤ numMax) :
    Placed t' := by
  obtain ⟨nums, curnum, first, next, rfl⟩ := h
  exact { hp with nums := hn }

theorem ArgsOnly.winsize (h : ArgsOnly t t') : t'.winsize = t.winsize := by
  obtain ⟨nums, curnum, first, next, rfl⟩ := h
  rfl

theorem setNum_nums {v : Nat} (h : ∀ i, t.nums i ≤ numMax) (hv : v ≤ numMax) (i : Nat) :
    (setNum t v).nums i ≤ numMax := by
  show Function.update t.nums t.curnum v i ≤ numMax
  by_cases hi : i = t.curnum
  · rw [hi, Function.update_self]
    exact hv
  · rw [Function.update_of_ne hi]
    exact h i

theorem digitArgument_spec (h : ∀ i, t.nums i ≤ numMax) {d : Nat} (hd : d < 10) :
    ArgsOnly t (digitArgument t d) ∧ (∀ i, (digitArgument t d).nums i ≤ numMax) ∧
      (digitArgument t d).curnum = t.curnum := by
  have hmax : numMax = 429496719 := rfl
  unfold digitArgument
  split
  · exact ⟨⟨_, _, _, _, rfl⟩, setNum_nums h (by omega), rfl⟩
  · split
    · exact ⟨⟨_, _, _, _, rfl⟩, setNum_nums h (by omega), rfl⟩
    · exact ⟨⟨_, _, _, _, rfl⟩, h, rfl⟩

theorem nextArgument_spec (h : ∀ i, t.nums i ≤ numMax) (hc : t.curnum < numSize) :
    ArgsOnly t (nextArgument t) ∧ (∀ i, (nextArgument t).nums i ≤ numMax) ∧
      (nextArgument t).curnum < numSize := by
  have hz : ∃ nums, (if t.firstdigit then setNum t 0 else t) = { t with nums := nums } ∧
      ∀ i, nums i ≤ numMax := by
    split
    · exact ⟨_, rfl, setNum_nums h (Nat.zero_le _)⟩
    · exact ⟨_, rfl, h⟩
  obtain ⟨nums, heq, hn⟩ := hz
  rw [nextArgument, heq]
  by_cases hfull : t.curnum + 1 = numSize
  · rw [if_pos hfull]
    exact ⟨⟨_, _, _, _, rfl⟩, hn, by show 0 < numSize; decide⟩
  · rw [if_neg hfull]
    exact ⟨⟨_, _, _, _, rfl⟩, hn, by show t.curnum + 1 < numSize; omega⟩

theorem lastArgument_spec (h : ∀ i, t.nums i ≤ numMax) :
    ArgsOnly t (lastArgument t) ∧ ∀ i, (lastArgument t).nums i ≤ numMax := by
  unfold lastArgument
  split
  · exact ⟨⟨_, _, _, _, rfl⟩, setNum_nums h (Nat.zero_le _)⟩
  · split
    · exact ⟨⟨_, _, _, _, rfl⟩, h⟩
    · exact ⟨⟨_, _, _, _, rfl⟩, h⟩

/-- The arguments stay in their range, and a sequence that goes on has room for one more. -/
theorem stateNumbers_spec (h : ∀ i, t.nums i ≤ numMax) (hc : t.curnum < numSize) (c : Nat) :
    Yields (fun r => ArgsOnly t r.2 ∧ (∀ i, r.2.nums i ≤ numMax) ∧
      (r.1 = true → r.2.curnum < numSize)) (stateNumbers t c) := by
  refine .check_bind (decide_eq_true hc) ?_
  split
  · obtain ⟨ha, hn, hcur⟩ := @digitArgument_spec t h (c - 48) (by omega)
    exact .ok ⟨ha, hn, fun _ => by rw [hcur]; exact hc⟩
  split
  · obtain ⟨ha, hn, hcur⟩ := nextArgument_spec h hc
    exact .ok ⟨ha, hn, fun _ => hcur⟩
  · obtain ⟨ha, hn⟩ := lastArgument_spec h
    exact .ok ⟨ha, hn, fun hd => by cases hd⟩

end

section

variable {s : Emu}

theorem stateSelect_ready (h : Good s) {st : State} (hc : st = .init → s.tek.curnum < numSize)
    (c : Nat) : Yields Ready (stateSelect st s c) := by
  unfold stateSelect
  split
  · exact .ok ⟨h.upd rfl { h.placed with }, by show 0 < numSize; decide⟩
  · split
    · rename_i hinit
      exact Ready.of_safe ⟨h, hc hinit⟩ (regularCharacter_safe h c)
    · refine Yields.bind (Cmd.safe h _) fun s' h' => .ok ⟨h'.1.upd rfl { h'.1.placed with }, ?_⟩
      show 0 < numSize
      decide

theorem nextstate_ready (h : Ready s) (c : Nat) : Yields Ready (nextstate s c) := by
  unfold nextstate
  dsimp only
  split
  · rename_i hnum
    refine Yields.bind (stateNumbers_spec h.placed.nums h.curnum c) ?_
    rintro ⟨done, t⟩ ⟨ha, hn, hdone⟩
    have hg : Good { s with tek := t } := by
      obtain ⟨sc, hwin⟩ := h.win
      rw [← ha.winsize] at hwin
      exact ⟨⟨sc, hwin⟩, ha.placed h.placed hn⟩
    dsimp only
    split
    · rename_i hd
      exact .ok ⟨hg, hdone hd⟩
    · refine stateSelect_ready hg (fun hinit => ?_) c
      rw [hinit] at hnum
      cases hnum
  · exact stateSelect_ready h.toGood (fun _ => h.curnum) c

theorem dispatch_ready (h : Ready s) (c : Nat) : Yields Ready (dispatch s c) := by
  have hg := h.toGood
  have hcs : ∀ v : Bool, Yields Ready (.ok (s.upd fun t => { t with curscs := v })) :=
    fun v => h.of_safe (.upd hg rfl { h.placed with } ⟨rfl, rfl, rfl⟩)
  unfold dispatch
  split
  · exact .ok h
  · exact .ok h
  · exact h.of_safe (backspace_safe hg)
  · exact h.of_safe (newline_safe hg)
  · exact h.of_safe (newline_safe hg)
  · exact h.of_safe (newpage_safe hg)
  · split
    · exact nextstate_ready h _
    · exact hcs true
  · split
    · exact nextstate_ready h _
    · exact hcs false
  · exact h.of_safe (carriageReturn_safe hg)
  · exact h.of_safe (cursorForwardTabulation_safe hg 1)
  · exact nextstate_ready h _

theorem postInput_eq (h : Placed s.tek) : postInput s = .ok s := by
  have horigin : (s.tek.originreg.tsBegin = s.tek.scrollreg.tsBegin ∧
      s.tek.originreg.tsEnd = s.tek.scrollreg.tsEnd) ∨
      (s.tek.originreg.tsBegin = 0 ∧ s.tek.originreg.tsEnd = s.tek.winsize.tpRow) := by
    rw [h.origin]
    split
    · exact Or.inl ⟨rfl, rfl⟩
    · exact Or.inr ⟨rfl, rfl⟩
  rw [postInput, decide_eq_true h.row_ge, decide_eq_true h.row_lt, decide_eq_true h.row_win,
    decide_eq_true h.col_lt, decide_eq_true h.saved_row, decide_eq_true h.saved_col,
    decide_eq_true h.scroll_le, decide_eq_true h.scroll_lt, decide_eq_true horigin]
  rfl

theorem inputChar_ready (h : Ready s) (c : Nat) : Yields Ready (inputChar s c) := by
  have hend : Ready (s.upd fun t => { t with instring := false }) :=
    ⟨h.toGood.upd rfl { h.placed with }, h.curnum⟩
  unfold inputChar
  split
  · split
    · exact .ok hend
    · exact .ok h
  · refine Yields.bind (dispatch_ready hend c) fun s' h' => ?_
    rw [postInput_eq h'.placed]
    exact .ok h'

/-- The decoder of UTF-8 is not looked at. -/
theorem Ready.decoder (h : Ready s) (left bits : Nat) :
    Ready (s.upd fun t => { t with utf8Left := left, utf8Partial := bits }) :=
  ⟨h.toGood.upd rfl { h.placed with }, h.curnum⟩

theorem inputByte_ready (h : Ready s) (c : UInt8) : Yields Ready (inputByte s c) := by
  unfold inputByte
  split
  · exact inputChar_ready (h.decoder 0 s.tek.utf8Partial) _
  split
  · exact .ok (h.decoder _ _)
  split
  · exact .ok (h.decoder _ _)
  split
  · exact .ok (h.decoder _ _)
  split
  · split
    · exact .ok h
    · have hdec := h.decoder (s.tek.utf8Left - 1) ((s.tek.utf8Partial <<< 6) ||| (c &&& 0x3f).toNat)
      dsimp only
      split
      · exact inputChar_ready hdec _
      · exact .ok hdec
  · exact .ok h

end

/-! ## Processes -/

/-- The event is output, or makes a window that the emulation can be in. -/
def TermEvent.Fits : TermEvent → Prop
  | output _ => True
  | winsz lin col => 1 < lin ∧ 0 < lin % 65536 ∧ 3 ≤ col % 65536 ∧
      lin % 65536 * (col % 65536) < 2 ^ 31

instance : DecidablePred TermEvent.Fits
  | .output _ => inferInstanceAs (Decidable True)
  | .winsz _ _ => inferInstanceAs (Decidable (_ ∧ _))

theorem processNew_spec :
    ∃ pp sc, Win ⟨24, 80⟩ pp sc ∧ processNew = .ok
      { tek := { setWinsize tekenInit ⟨24, 80⟩ with cursor := ⟨0, 8⟩ }
        pp := pp
        responses := [] } := by
  obtain ⟨pp, hrun, hw⟩ := @resize_spec { tek := tekenInit, pp := {}, responses := [] } .none
    (Or.inl ⟨rfl, rfl⟩) 24 80 (by decide) (by decide)
  refine ⟨pp, _, hw, ?_⟩
  rw [processNew, hrun, ok_bind, setCursor]
  rfl

theorem processNew_ready : Yields Ready processNew := by
  obtain ⟨pp, sc, hw, hrun⟩ := processNew_spec
  have hp : Placed (setWinsize tekenInit ⟨24, 80⟩) :=
    doReset_placed (by decide) (by decide) (by decide) (fun _ => Nat.zero_le _) rfl
  have hcurnum : 0 < numSize := by decide
  have hrow : 0 < 24 := by decide
  have hcol : 8 < 80 := by decide
  rw [hrun]
  refine .ok ⟨⟨⟨_, hw⟩, ?_⟩, hcurnum⟩
  exact { hp with row_ge := Nat.zero_le _, row_lt := hrow, col_lt := hcol }

theorem step_ready {s : Emu} (h : Ready s) {ev : TermEvent} (hev : ev.Fits) :
    Yields Ready (ev.step s) := by
  cases ev with
  | output buf => exact Yields.run (fun s c _ h => inputByte_ready h c) s h
  | winsz lin col =>
    obtain ⟨hlin, hrow, hcol, harea⟩ := hev
    have hcol1 : 1 < col := by
      have := Nat.mod_le col 65536
      omega
    exact .check_bind (decide_eq_true hlin) (.check_bind (decide_eq_true hcol1)
      (h.of_safe (resize_safe h.toGood hrow hcol harea)))

theorem processRun_ready {evs : List TermEvent} (hevs : ∀ ev ∈ evs, ev.Fits) :
    Yields Ready (processRun evs) :=
  Yields.bind processNew_ready fun s h =>
    Yields.run (fun _ ev hev h => step_ready h (hevs ev hev)) s h

end Term
end VTest
