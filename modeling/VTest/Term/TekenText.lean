import VTest.Term.TekenRead

/-!
# VTest.Term.TekenText

Where a text is on the screen.

A terminal that has been reset is one long line, folded into rows of the width of the window, of
which the last rows are seen. `Typing` says so of a state in which a text has been written, with the
number of rows that have scrolled away.

* `Typing.char`: one more character.
* `reset_then_text`: after a reset, any text of characters of width one.
* `narrow_window_aborts`: what happens in a window that is too narrow.
-/

namespace VTest
namespace Term

/-- The modes of a terminal that has been reset. -/
structure Plain (t : Teken) : Prop where
  nextstate : t.nextstate = .init
  instring : t.instring = false
  insert : t.insert = false
  autowrap : t.autowrap = true
  cons25 : t.cons25 = false
  bit8 : t.bit8 = false
  scs : (if t.curscs then t.scs1 else t.scs0) = .usAscii
  scroll : t.scrollreg = ⟨0, t.winsize.tpRow⟩

section

variable {s : Emu} {sc : Screen}

/-! ## One character -/

theorem Plain.printed {t : Teken} (h : Plain t) {c : Nat} {w : Nat} (hw : wcwidth c = w)
    (hpos : 0 < w) : printed t c = some (c, w) := by
  have hscs : scsProcess t c = c := by rw [scsProcess, h.scs]
  rw [Term.printed, h.bit8, if_neg Bool.false_ne_true, hscs]
  dsimp only
  rw [hw, if_neg (by omega)]
  rfl

/-- Control characters have no width. -/
theorem ge_of_wcwidth {c : Nat} (h : 0 < wcwidth c) : 32 ≤ c := by
  by_contra hlt
  unfold wcwidth at h
  by_cases h0 : c = 0
  · rw [if_pos h0] at h
    exact absurd h (by decide)
  · rw [if_neg h0, if_pos (Or.inl (by omega))] at h
    exact absurd h (by decide)

theorem wcwidth_ascii {c : Nat} (h32 : 32 ≤ c) (h126 : c ≤ 126) : wcwidth c = 1 := by
  have hcomb : bisearch c combining = false := by
    have hfirst : c < (combining.getD 0 (0, 0)).1 := by
      show c < 0x300
      omega
    rw [bisearch, if_pos (Or.inl hfirst)]
  rw [wcwidth, if_neg (by omega), if_neg (by omega), hcomb, if_neg Bool.false_ne_true,
    if_neg (by omega)]

theorem Plain.dispatch {s : Emu} (h : Plain s.tek) {c : Nat} (hc : 32 ≤ c) :
    dispatch s c = regularCharacter s c := by
  have hsel : select State.init.prefixes c = none := by
    have hne : ¬(Char.ofNat escape).toNat = c := by
      show ¬27 = c
      omega
    simp [select, State.prefixes, hne]
  rw [dispatch_of_ge (by omega), Term.nextstate, h.nextstate]
  show stateSelect .init s c = _
  rw [stateSelect, hsel]
  rfl

theorem doPutchar_plain (h : Win s.tek.winsize s.pp sc) (hins : s.tek.insert = false) {tp : Pos}
    {c width : Nat} (hrow : tp.tpRow < s.tek.winsize.tpRow)
    (hcol : tp.tpCol < s.tek.winsize.tpCol) (hw : width = 1) :
    ∃ pp', doPutchar s tp c width = .ok { s.upd (fun t => { t with last := c }) with pp := pp' } ∧
      Win s.tek.winsize pp'
        (sc.draw (fun i j => i = tp.tpRow ∧ j = tp.tpCol) (.ofChar (UInt32.ofNat c))) := by
  subst hw
  obtain ⟨pp', hrun, hwin⟩ := @putchar_spec (s.upd fun t => { t with last := c }) sc h tp
    (UInt32.ofNat c) hrow hcol
  refine ⟨pp', ?_, hwin⟩
  have hroom : makeRoom (s.upd fun t => { t with last := c }) tp 1 =
      .ok (s.upd fun t => { t with last := c }) := by
    rw [makeRoom, if_neg]
    rintro ⟨hc, _⟩
    exact Bool.false_ne_true (hins.symm.trans hc)
  rw [doPutchar, hroom, ok_bind, hrun, ok_bind, putRight, if_neg (by omega)]

/-- One row has gone, and the last one is blank. -/
theorem doScroll_plain (h : Win s.tek.winsize s.pp sc)
    (hcur : s.tek.cursor.tpRow ≤ s.tek.winsize.tpRow)
    (hreg : s.tek.scrollreg = ⟨0, s.tek.winsize.tpRow⟩) :
    ∃ pp' sc', doScroll s 1 = .ok { s with pp := pp' } ∧ Win s.tek.winsize pp' sc' ∧
      ∀ i < s.tek.winsize.tpRow, ∀ j < s.tek.winsize.tpCol, sc'.glyph i j =
        if i + 1 < s.tek.winsize.tpRow then sc.glyph (i + 1) j else .blank := by
  have hrow := h.row_pos
  have hcol := h.col_pos
  have hscroll : doScroll s 1 = doScrollDown s 1 := by
    rw [doScroll, decide_eq_true hcur, hreg, decide_eq_true (Nat.le_refl _)]
    rfl
  rw [hscroll, doScrollDown, hreg]
  dsimp only
  by_cases hone : 0 + 1 < s.tek.winsize.tpRow
  · obtain ⟨pp1, hrun1, hw1⟩ := @copy_spec s sc h ⟨⟨0 + 1, 0⟩, s.tek.winsize⟩ ⟨0, 0⟩ hone
      (Nat.le_refl _) hcol (Nat.le_refl _) (by dsimp only; omega) (by dsimp only; omega)
    obtain ⟨pp2, hrun2, hw2⟩ := @fill_spec { s with pp := pp1 } _ hw1
      ⟨⟨s.tek.winsize.tpRow - 1, 0⟩, s.tek.winsize⟩ blank (by dsimp only; omega) (Nat.le_refl _)
      hcol (Nat.le_refl _)
    refine ⟨pp2, _, ?_, hw2, fun i hi j hj => ?_⟩
    · rw [if_pos hone]
      exact bind_eq_ok.mpr ⟨_, hrun1, hrun2⟩
    · show (if Rect.Contains ⟨⟨s.tek.winsize.tpRow - 1, 0⟩, s.tek.winsize⟩ i j then
        Glyph.ofChar blank
        else if (Rect.movedTo ⟨⟨0 + 1, 0⟩, s.tek.winsize⟩ ⟨0, 0⟩).Contains i j then
          sc.glyph (0 + 1 + (i - 0)) (0 + (j - 0)) else sc.glyph i j) = _
      by_cases hlast : i + 1 < s.tek.winsize.tpRow
      · have hout : ¬Rect.Contains ⟨⟨s.tek.winsize.tpRow - 1, 0⟩, s.tek.winsize⟩ i j := by
          rintro ⟨⟨hge, _⟩, _⟩
          dsimp only at hge
          omega
        have hin : (Rect.movedTo ⟨⟨0 + 1, 0⟩, s.tek.winsize⟩ ⟨0, 0⟩).Contains i j :=
          ⟨⟨Nat.zero_le _, by dsimp only [Rect.movedTo]; omega⟩, Nat.zero_le _,
            by dsimp only [Rect.movedTo]; omega⟩
        rw [if_neg hout, if_pos hin, if_pos hlast, Nat.sub_zero, Nat.sub_zero, Nat.zero_add,
          Nat.zero_add, Nat.add_comm]
      · have hin : Rect.Contains ⟨⟨s.tek.winsize.tpRow - 1, 0⟩, s.tek.winsize⟩ i j :=
          ⟨⟨by dsimp only; omega, hi⟩, Nat.zero_le _, hj⟩
        rw [if_pos hin, if_neg hlast]
        rfl
  · obtain ⟨pp1, hrun1, hw1⟩ := @fill_spec s sc h ⟨⟨0, 0⟩, s.tek.winsize⟩ blank hrow
      (Nat.le_refl _) hcol (Nat.le_refl _)
    refine ⟨pp1, _, ?_, hw1, fun i hi j hj => ?_⟩
    · rw [if_neg hone]
      exact hrun1
    · have hin : Rect.Contains ⟨⟨0, 0⟩, s.tek.winsize⟩ i j :=
        ⟨⟨Nat.zero_le _, hi⟩, Nat.zero_le _, hj⟩
      refine (if_pos hin).trans ?_
      rw [if_neg (by omega)]
      rfl

/-- A character behind the last one. -/
theorem printPlain_plain (h : Win s.tek.winsize s.pp sc) (hins : s.tek.insert = false) {c : Nat}
    (hrow : s.tek.cursor.tpRow < s.tek.winsize.tpRow)
    (hcol : s.tek.cursor.tpCol < s.tek.winsize.tpCol) :
    ∃ pp', printPlain s c 1 = .ok { s with
        pp := pp'
        tek := { s.tek with
          last := c
          cursor := ⟨s.tek.cursor.tpRow, min (s.tek.cursor.tpCol + 1) (s.tek.winsize.tpCol - 1)⟩
          wrapped := decide (s.tek.cursor.tpCol + 1 = s.tek.winsize.tpCol) } } ∧
      Win s.tek.winsize pp' (sc.draw
        (fun i j => i = s.tek.cursor.tpRow ∧ j = s.tek.cursor.tpCol)
        (.ofChar (UInt32.ofNat c))) := by
  obtain ⟨pp', hrun, hwin⟩ := doPutchar_plain h hins hrow hcol rfl
  have hshort : s.tek.winsize.tpCol < 65536 := by
    rw [h.col]
    exact Nat.mod_lt _ (by decide)
  refine ⟨pp', ?_, hwin⟩
  rw [printPlain, hrun, ok_bind]
  have hmod : (s.tek.cursor.tpCol + 1) % 65536 = s.tek.cursor.tpCol + 1 :=
    Nat.mod_eq_of_lt (by omega)
  show funcsCursor { s with
    pp := pp'
    tek := { s.tek with
      last := c
      cursor := ⟨s.tek.cursor.tpRow,
        if decide ((s.tek.cursor.tpCol + 1) % 65536 ≥ s.tek.winsize.tpCol) = true then
          s.tek.winsize.tpCol - 1 else (s.tek.cursor.tpCol + 1) % 65536⟩
      wrapped := decide ((s.tek.cursor.tpCol + 1) % 65536 ≥ s.tek.winsize.tpCol) } } = _
  rw [hmod]
  by_cases hend : s.tek.cursor.tpCol + 1 = s.tek.winsize.tpCol
  · rw [decide_eq_true hend, decide_eq_true (by omega), if_pos rfl,
      Nat.min_eq_right (show s.tek.winsize.tpCol - 1 ≤ s.tek.cursor.tpCol + 1 by omega)]
    exact funcsCursor_eq hrow (by dsimp only; omega)
  · rw [decide_eq_false hend, decide_eq_false (by omega), if_neg Bool.false_ne_true,
      Nat.min_eq_left (show s.tek.cursor.tpCol + 1 ≤ s.tek.winsize.tpCol - 1 by omega)]
    exact funcsCursor_eq hrow (by dsimp only; omega)

/-- A character at the beginning of a line. -/
theorem toLine_plain (h : Win s.tek.winsize s.pp sc) (hins : s.tek.insert = false) {c row : Nat}
    (hrow : row < s.tek.winsize.tpRow) (hcol : 1 < s.tek.winsize.tpCol) :
    ∃ pp', printWrap.toLine c 1 s row = .ok { s with
        pp := pp'
        tek := { s.tek with last := c, cursor := ⟨row, 1⟩, wrapped := false } } ∧
      Win s.tek.winsize pp'
        (sc.draw (fun i j => i = row ∧ j = 0) (.ofChar (UInt32.ofNat c))) := by
  obtain ⟨pp', hrun, hwin⟩ := @doPutchar_plain s sc h hins ⟨row, 0⟩ c 1 hrow h.col_pos rfl
  refine ⟨pp', ?_, hwin⟩
  rw [printWrap.toLine, hrun, ok_bind]
  exact funcsCursor_eq hrow hcol

end

/-! ## Texts -/

/-- What is in a place of the screen after a text, of which the first character was written at the
place `p` of the long line, and of which `R` rows have scrolled away. -/
def typedGlyph (sc : Screen) (H W p R : Nat) (text : List Char) (i j : Nat) : Glyph :=
  let q := (i + R) * W + j
  if p ≤ q ∧ q < p + text.length then .ofChar (text.getD (q - p) ' ').val
  else if i + R < H then sc.glyph (i + R) j
  else .blank

/-- A text has been written, from the place `p` on. The cursor is behind it, or on its last
character if that is in the last column. -/
structure Typing (sc : Screen) (H W p R : Nat) (text : List Char) (s : Emu) : Prop where
  ready : Ready s
  plain : Plain s.tek
  size : s.tek.winsize = ⟨H, W⟩
  shows : ∃ sc', Win s.tek.winsize s.pp sc' ∧
    ∀ i < H, ∀ j < W, sc'.glyph i j = typedGlyph sc H W p R text i j
  place : (s.tek.cursor.tpRow + R) * W + s.tek.cursor.tpCol + s.tek.wrapped.toNat = p + text.length
  wrapped : s.tek.wrapped = true → s.tek.cursor.tpCol + 1 = W
  fresh : s.tek.wrapped = false → text ≠ [] → 0 < s.tek.cursor.tpCol
  bottom : R = 0 ∨ s.tek.cursor.tpRow + 1 = H

section

variable {sc : Screen} {H W p R : Nat} {text : List Char} {s : Emu}

theorem place_inj {a b j k : Nat} (hj : j < W) (hk : k < W) :
    a * W + j = b * W + k ↔ a = b ∧ j = k := by
  have hW : 0 < W := Nat.zero_lt_of_lt hj
  have ha := (Nat.div_mod_unique hW (a := a * W + j) (c := j) (d := a)).mpr
    ⟨by rw [Nat.mul_comm, Nat.add_comm], hj⟩
  have hb := (Nat.div_mod_unique hW (a := b * W + k) (c := k) (d := b)).mpr
    ⟨by rw [Nat.mul_comm, Nat.add_comm], hk⟩
  constructor
  · intro h
    rw [h] at ha
    exact ⟨ha.1.symm.trans hb.1, ha.2.symm.trans hb.2⟩
  · rintro ⟨rfl, rfl⟩
    rfl

theorem typedGlyph_nil {i j : Nat} (hi : i < H) :
    typedGlyph sc H W 0 0 [] i j = sc.glyph i j := by
  rw [typedGlyph, Nat.add_zero, if_neg fun hc => Nat.not_lt_zero _ hc.2, if_pos hi]

theorem typedGlyph_snoc (c : Char) (i j : Nat) : typedGlyph sc H W p R (text ++ [c]) i j =
    if (i + R) * W + j = p + text.length then .ofChar c.val
    else typedGlyph sc H W p R text i j := by
  rw [typedGlyph, typedGlyph, List.length_append, List.length_singleton]
  generalize (i + R) * W + j = q
  by_cases hq : q = p + text.length
  · rw [if_pos hq, if_pos (by omega), List.getD_append_right _ _ _ _ (by omega), hq,
      Nat.add_sub_cancel_left, Nat.sub_self]
    rfl
  · rw [if_neg hq]
    by_cases hin : p ≤ q ∧ q < p + text.length
    · rw [if_pos hin, if_pos (by omega), List.getD_append _ _ _ _ (by omega)]
    · rw [if_neg hin, if_neg (by omega)]

/-- One more row has scrolled away, and the text is above the last one. -/
theorem typedGlyph_scroll (hp : p + text.length ≤ (H + R) * W) {i : Nat} (hi : i < H) (j : Nat) :
    (if i + 1 < H then typedGlyph sc H W p R text (i + 1) j else .blank) =
      typedGlyph sc H W p (R + 1) text i j := by
  have hrow : i + 1 + R = i + (R + 1) := by omega
  by_cases hlast : i + 1 < H
  · rw [if_pos hlast, typedGlyph, typedGlyph, hrow]
  · have hq : (i + (R + 1)) * W + j = (H + R) * W + j := by
      rw [show i + (R + 1) = H + R by omega]
    rw [if_neg hlast, typedGlyph, hq, if_neg (by omega), if_neg (by omega)]

/-- The place of the next character is drawn. -/
theorem typedGlyph_draw {row col i j : Nat} {g : Glyph} (c : Char)
    (hplace : (row + R) * W + col = p + text.length) (hcol : col < W) (hj : j < W)
    (hg : g = typedGlyph sc H W p R text i j) :
    (if i = row ∧ j = col then .ofChar c.val else g) =
      typedGlyph sc H W p R (text ++ [c]) i j := by
  have hiff : (i + R) * W + j = p + text.length ↔ i = row ∧ j = col := by
    rw [← hplace, place_inj hj hcol, Nat.add_right_cancel_iff]
  rw [typedGlyph_snoc, hg]
  by_cases hat : i = row ∧ j = col
  · rw [if_pos hat, if_pos (hiff.mpr hat)]
  · rw [if_neg hat, if_neg (hiff.not.mpr hat)]

theorem Typing.decoded (h : Typing sc H W p R text s) (c : Char) :
    Typing sc H W p R text (s.decoded c) :=
  { h with ready := h.ready.decoded c, plain := { h.plain with } }

theorem Plain.regular {s : Emu} (h : Plain s.tek) {c w : Nat} (hc : wcwidth c = w) (hw : 0 < w) :
    regularCharacter s c =
      if (s.tek.wrapped ∧ s.tek.cursor.tpCol + 1 = s.tek.winsize.tpCol) ∨
        s.tek.cursor.tpCol + w > s.tek.winsize.tpCol then printWrap s c w
      else printPlain s c w := by
  rw [regularCharacter, h.printed hc hw]
  dsimp only
  rw [h.cons25, if_neg Bool.false_ne_true, h.autowrap]
  simp only [true_and]

/-- The next character has been drawn, in its place of the row or as the first one of a row. -/
theorem Typing.drawn {sc1 : Screen} {row col : Nat} {c : Char} (hready : Ready s)
    (hplain : Plain s.tek) (hsize : s.tek.winsize = ⟨H, W⟩)
    (hwin : Win s.tek.winsize s.pp
      (sc1.draw (fun i j => i = row ∧ j = col) (.ofChar (UInt32.ofNat c.toNat))))
    (hglyph : ∀ i < H, ∀ j < W, sc1.glyph i j = typedGlyph sc H W p R text i j)
    (hplace : (row + R) * W + col = p + text.length) (hcol : col < W)
    (hcur : s.tek.cursor = ⟨row, min (col + 1) (W - 1)⟩)
    (hwr : s.tek.wrapped = decide (col + 1 = W)) (hbottom : R = 0 ∨ row + 1 = H) :
    Typing sc H W p R (text ++ [c]) s := by
  have hval : UInt32.ofNat c.toNat = c.val := UInt32.ofNat_toNat
  have hwide : 2 < W := by
    have hw := hready.placed.wide
    rw [hsize] at hw
    exact hw
  refine ⟨hready, hplain, hsize, ⟨_, hwin, fun i hi j hj => ?_⟩, ?_, ?_, ?_, ?_⟩
  · rw [hval]
    exact typedGlyph_draw c hplace hcol hj (hglyph i hi j hj)
  · rw [hcur, hwr, List.length_append, List.length_singleton]
    dsimp only
    by_cases hend : col + 1 = W
    · rw [decide_eq_true hend, Bool.toNat_true]
      omega
    · rw [decide_eq_false hend, Bool.toNat_false]
      omega
  · intro hend
    rw [hwr] at hend
    have hend' : col + 1 = W := of_decide_eq_true hend
    rw [hcur]
    dsimp only
    omega
  · intro _ _
    rw [hcur]
    dsimp only
    omega
  · rw [hcur]
    exact hbottom

/-- One more character, of width one. -/
theorem Typing.char (h : Typing sc H W p R text s) {c : Char} (hc : wcwidth c.toNat = 1) :
    ∃ s' R', inputChar s c.toNat = .ok s' ∧ Typing sc H W p R' (text ++ [c]) s' := by
  obtain ⟨s', hrun, hready⟩ := (inputChar_ready h.ready c.toNat).exists_ok
  have hge : 32 ≤ c.toNat := ge_of_wcwidth (by rw [hc]; decide)
  obtain ⟨sc', hwin, hglyph⟩ := h.shows
  have hH : s.tek.winsize.tpRow = H := by rw [h.size]
  have hW : s.tek.winsize.tpCol = W := by rw [h.size]
  have hrow := h.ready.placed.row_win
  have hcol := h.ready.placed.col_lt
  have hwide := h.ready.placed.wide
  have hplace := h.place
  have hreg := hrun
  rw [h.ready.char h.plain.instring, h.plain.dispatch hge,
    h.plain.regular (w := 1) hc Nat.one_pos] at hreg
  cases hwr : s.tek.wrapped with
  | false =>
    rw [hwr, Bool.toNat_false, Nat.add_zero] at hplace
    rw [hwr, if_neg (by simp; omega)] at hreg
    obtain ⟨pp', hrun', hwin'⟩ := printPlain_plain (c := c.toNat) hwin h.plain.insert hrow hcol
    cases hrun'.symm.trans hreg
    refine ⟨_, R, hrun, .drawn hready { h.plain with } h.size hwin' hglyph hplace (by omega) ?_ ?_
      h.bottom⟩
    · rw [← hW]
    · rw [← hW]
  | true =>
    have hcol1 : s.tek.cursor.tpCol + 1 = W := h.wrapped hwr
    -- the text ends with a row, so the next character is the first of the row below
    have hnext : (s.tek.cursor.tpRow + 1 + R) * W + 0 = p + text.length := by
      rw [hwr, Bool.toNat_true] at hplace
      rw [show s.tek.cursor.tpRow + 1 + R = s.tek.cursor.tpRow + R + 1 by omega, Nat.add_one_mul]
      omega
    have hfirst : min (0 + 1) (W - 1) = 1 := Nat.min_eq_left (by omega)
    have hnowrap : decide (0 + 1 = W) = false := decide_eq_false (by omega)
    rw [hwr, if_pos (Or.inl ⟨rfl, by omega⟩), printWrap, h.plain.scroll] at hreg
    dsimp only at hreg
    by_cases hlast : s.tek.cursor.tpRow + 1 = H
    · obtain ⟨pp1, sc1, hrun1, hwin1, hglyph1⟩ := doScroll_plain hwin hrow.le h.plain.scroll
      obtain ⟨pp2, hrun2, hwin2⟩ := @toLine_plain { s with pp := pp1 } sc1 hwin1 h.plain.insert
        c.toNat (s.tek.winsize.tpRow - 1) (by dsimp only; omega) (by dsimp only; omega)
      rw [if_pos (by omega), hrun1, ok_bind, h.plain.scroll] at hreg
      cases hrun2.symm.trans hreg
      have hplace1 : (s.tek.winsize.tpRow - 1 + (R + 1)) * W + 0 = p + text.length := by
        rw [← hnext, show s.tek.winsize.tpRow - 1 + (R + 1) = s.tek.cursor.tpRow + 1 + R by omega]
      have habove : p + text.length ≤ (H + R) * W := by
        rw [← hnext, hlast]
        exact Nat.le_refl _
      refine ⟨_, R + 1, hrun, .drawn hready { h.plain with } h.size hwin2 (fun i hi j hj => ?_)
        hplace1 (by omega) ?_ hnowrap.symm (Or.inr (by omega))⟩
      · rw [hglyph1 i (by omega) j (by omega), hH, ← typedGlyph_scroll habove hi]
        by_cases hin : i + 1 < H
        · rw [if_pos hin, if_pos hin, hglyph (i + 1) hin j hj]
        · rw [if_neg hin, if_neg hin]
      · rw [hfirst]
    · obtain ⟨pp2, hrun2, hwin2⟩ := @toLine_plain s sc' hwin h.plain.insert c.toNat
        (s.tek.cursor.tpRow + 1) (by omega) (by omega)
      rw [if_neg (by omega), if_neg (by omega)] at hreg
      cases hrun2.symm.trans hreg
      refine ⟨_, R, hrun, .drawn hready { h.plain with } h.size hwin2 hglyph hnext (by omega) ?_
        hnowrap.symm (Or.inl (h.bottom.resolve_right hlast))⟩
      rw [hfirst]

/-- A whole text. -/
theorem Typing.all {text0 : List Char} (h : Typing sc H W p R text0 s) (l : List Char)
    (hl : ∀ c ∈ l, wcwidth c.toNat = 1) :
    ∃ s' R', s.input (utf8 l) = .ok s' ∧ Typing sc H W p R' (text0 ++ l) s' := by
  rw [utf8_run h.ready]
  induction l generalizing s R text0 with
  | nil => exact ⟨s, R, rfl, by rw [List.append_nil]; exact h⟩
  | cons c l ih =>
    obtain ⟨s1, R1, hrun1, h1⟩ := (h.decoded c).char (hl c List.mem_cons_self)
    obtain ⟨s2, R2, hrun2, h2⟩ := ih h1 fun d hd => hl d (List.mem_cons_of_mem c hd)
    refine ⟨s2, R2, ?_, by rw [List.append_cons]; exact h2⟩
    rw [run_cons, hrun1, ok_bind, hrun2]

/-- As many rows have scrolled away as the text is longer than the screen. -/
theorem Typing.scrolled (h : Typing sc H W 0 R text s) : R = (text.length - 1) / W + 1 - H := by
  have hrow := h.ready.placed.row_win
  have hcol := h.ready.placed.col_lt
  have hwide := h.ready.placed.wide
  have hplace := h.place
  rw [h.size] at hrow hcol hwide
  dsimp only at hrow hcol hwide
  have hW : 0 < W := Nat.zero_lt_of_lt hcol
  by_cases hne : text = []
  · rw [hne] at hplace
    have hzero : (s.tek.cursor.tpRow + R) * W = 0 := by
      have hlen : ([] : List Char).length = 0 := rfl
      omega
    have hR : s.tek.cursor.tpRow + R = 0 := (Nat.mul_eq_zero.mp hzero).resolve_right hW.ne'
    rw [hne, List.length_nil, Nat.zero_sub, Nat.zero_div]
    omega
  · -- the row of the last character is that of the cursor
    have hlast : ∃ k < W, text.length - 1 = (s.tek.cursor.tpRow + R) * W + k := by
      cases hwr : s.tek.wrapped with
      | false =>
        have hpos := h.fresh hwr hne
        rw [hwr, Bool.toNat_false] at hplace
        exact ⟨s.tek.cursor.tpCol - 1, by omega, by omega⟩
      | true =>
        rw [hwr, Bool.toNat_true] at hplace
        exact ⟨s.tek.cursor.tpCol, hcol, by omega⟩
    obtain ⟨k, hk, hlen⟩ := hlast
    have hdiv := (Nat.div_mod_unique hW (a := text.length - 1) (c := k)
      (d := s.tek.cursor.tpRow + R)).mpr ⟨by rw [hlen, Nat.mul_comm, Nat.add_comm], hk⟩
    rw [hdiv.1]
    rcases h.bottom with hz | hb <;> omega

end

/-! ## Reset -/

/-- `BEL`, `CAN`, `ESC [ = 0 T` and `ESC c`. -/
def resetAll : Bytes := [7, 24] ++ [27, 91] ++ [61] ++ [digit 0] ++ [84] ++ [27] ++ [99]

section

variable {s s' : Emu}

/-- A character that leads on from a state with arguments. -/
theorem Idle.gotoArgs (h : Idle s) (st : State) {st' : State} {c : UInt8}
    (hst : s.tek.nextstate = st) (hsel : select st.prefixes c.toNat = some st')
    (hnum : st.numbers = true) (hc : 60 ≤ c.toNat) (hc' : c.toNat < 128) :
    inputByte s c = .ok ({ s with tek := lastArgument s.tek }.upd (stateSwitch st')) ∧
      Idle ({ s with tek := lastArgument s.tek }.upd (stateSwitch st')) := by
  obtain ⟨⟨_, _, _, _, ha⟩, _⟩ := lastArgument_spec h.placed.nums
  refine h.step hc' ?_ ?_ ?_
  · rw [dispatch_of_ge (by omega), nextstate, hst, if_pos hnum,
      stateNumbers_other h.curnum (by omega) (by omega), ok_bind]
    show (if false = true then _ else stateSelect st { s with tek := lastArgument s.tek } _) = _
    rw [if_neg (by decide), stateSelect, hsel]
  · show (lastArgument s.tek).utf8Left = 0
    rw [ha]
    exact h.left
  · show (lastArgument s.tek).instring = false
    rw [ha]
    exact h.instring

/-- The character that ends a sequence without arguments. -/
theorem Idle.finalPlain (h : Idle s) (st : State) (hst : s.tek.nextstate = st)
    (hnum : st.numbers = false) (hinit : st ≠ .init) {c : UInt8} (hc : 16 ≤ c.toNat)
    (hc' : c.toNat < 128) (hpre : select st.prefixes c.toNat = none) {cmd : Cmd}
    (hsel : select st.cmds c.toNat = some cmd) (hexec : cmd.exec s = .ok s')
    (hl : s'.tek.utf8Left = 0) (hi : s'.tek.instring = false) :
    inputByte s c = .ok (s'.upd fun t => stateSwitch .init { t with last := 0 }) ∧
      Idle (s'.upd fun t => stateSwitch .init { t with last := 0 }) := by
  refine h.step hc' ?_ hl hi
  rw [dispatch_of_ge hc, nextstate, hst, hnum]
  show stateSelect st s _ = _
  rw [stateSelect, hpre]
  dsimp only
  rw [if_neg hinit, hsel, Option.getD_some, hexec]
  rfl

theorem resetToInitialState_spec {sc : Screen} (h : Win s.tek.winsize s.pp sc) :
    ∃ pp', resetToInitialState s = .ok { s.upd doReset with pp := pp' } ∧
      Win s.tek.winsize pp'
        (sc.draw (Rect.Contains ⟨⟨0, 0⟩, s.tek.winsize⟩) (.ofChar blank)) := by
  obtain ⟨pp', hrun, hwin⟩ := @fill_spec (s.upd doReset) sc h ⟨⟨0, 0⟩, s.tek.winsize⟩ blank
    h.row_pos (Nat.le_refl _) h.col_pos (Nat.le_refl _)
  refine ⟨pp', ?_, hwin⟩
  have herase : eraseDisplay (s.upd doReset) 2 = .ok { s.upd doReset with pp := pp' } := hrun
  rw [resetToInitialState, herase, ok_bind]
  exact funcsCursor_eq h.row_pos h.col_pos

theorem resetAll_spec (h : Ready s) :
    ∃ s' sc, s.input resetAll = .ok s' ∧
      Typing sc s.tek.winsize.tpRow s.tek.winsize.tpCol 0 0 [] s' ∧
      ∀ i < s.tek.winsize.tpRow, ∀ j < s.tek.winsize.tpCol, sc.glyph i j = .blank := by
  obtain ⟨s1, hrun1, h1⟩ := sync_spec h
  obtain ⟨hrun2, h2⟩ := h1.idle.csi h1.nextstate
  have hsel3 : select State.csi.prefixes (61 : UInt8).toNat = some .csiEqual := by decide
  obtain ⟨hrun3, h3⟩ := h2.gotoArgs .csi rfl hsel3 rfl (by decide) (by decide)
  obtain ⟨hrun4, h4⟩ := h3.digit rfl (by decide : 0 < 10)
  have hpre5 : select State.csiEqual.prefixes (84 : UInt8).toNat = none := by decide
  have hsel5 : select State.csiEqual.cmds (84 : UInt8).toNat = some .c25mode := by decide
  have harg : argR (lastArgument (digitArgument (stateSwitch .csiEqual
      (lastArgument (stateSwitch .csi s1.tek))) 0)) 1 = 0 := by
    show Function.update s1.tek.nums 0 0 0 = 0
    rw [Function.update_self]
  have hexec5 := congrArg (fun v => Except.ok (ε := Trap) (setTerminalMode { s1 with
    tek := lastArgument (digitArgument (stateSwitch .csiEqual
      (lastArgument (stateSwitch .csi s1.tek))) 0) } v)) harg
  obtain ⟨hrun5, h5⟩ := h4.final rfl rfl (by decide) (by decide) hpre5 hsel5 hexec5 h1.idle.left
    h1.idle.instring
  have hsel6 : select State.init.prefixes (27 : UInt8).toNat = some .esc := by decide
  obtain ⟨hrun6, h6⟩ := h5.goto .init rfl hsel6 rfl (by decide) (by decide)
  have hpre7 : select State.esc.prefixes (99 : UInt8).toNat = none := by decide
  have hsel7 : select State.esc.cmds (99 : UInt8).toNat = some .ris := by decide
  obtain ⟨sc, hwin6⟩ := h6.win
  obtain ⟨pp7, hexec7, hwin7⟩ := resetToInitialState_spec hwin6
  obtain ⟨hrun7, h7⟩ := h6.finalPlain .esc rfl rfl (by decide) (by decide) (by decide) hpre7 hsel7
    hexec7 h6.left rfl
  rw [← h1.winsize]
  refine ⟨_, sc.draw (Rect.Contains ⟨⟨0, 0⟩, s1.tek.winsize⟩) (.ofChar blank),
    Eq.trans ?_ hrun7, ⟨h7.toReady, ⟨rfl, rfl, rfl, rfl, rfl, h1.idle.placed.utf8, rfl,
    rfl⟩, rfl, ⟨_, hwin7, fun i hi j hj => ?_⟩, ?_, (fun hw => by cases hw), fun _ hne =>
    absurd rfl hne, Or.inl rfl⟩, fun i hi j hj => ?_⟩
  · rw [Emu.input, resetAll, run_append, run_append, run_append, run_append, run_append,
      run_append, hrun1, ok_bind, hrun2, ok_bind, run_singleton, hrun3, ok_bind, run_singleton,
      hrun4, ok_bind, run_singleton, hrun5, ok_bind, run_singleton, hrun6, ok_bind, run_singleton]
  · exact (typedGlyph_nil hi).symm
  · show (0 + 0) * s1.tek.winsize.tpCol + 0 + 0 = 0 + 0
    rw [Nat.zero_mul]
  · exact if_pos ⟨⟨Nat.zero_le _, hi⟩, Nat.zero_le _, hj⟩

end

/-- What a place of the screen shows of a text that begins in its first place and is folded into
rows of `W` columns, `H` of which are seen. -/
def foldedAt (H W : Nat) (text : List Char) (i j : Nat) : UInt8 :=
  match text[(i + ((text.length - 1) / W + 1 - H)) * W + j]? with
  | some c => termChar c.val
  | none => 32

theorem Typing.cell {sc : Screen} {H W R : Nat} {text : List Char} {s : Emu}
    (h : Typing sc H W 0 R text s) (hsc : ∀ i < H, ∀ j < W, sc.glyph i j = .blank) {i j : Nat}
    (hi : i < H) (hj : j < W) : s.pp.cell i j = some (foldedAt H W text i j) := by
  obtain ⟨sc', hwin, hglyph⟩ := h.shows
  have hrow := hwin.row_le
  have hcol := hwin.col_le
  rw [h.size, hwin.shows.nlin] at hrow
  rw [h.size, hwin.shows.ncol] at hcol
  rw [hwin.shows.text i (hi.trans_le hrow) j (hj.trans_le hcol), hglyph i hi j hj, typedGlyph,
    foldedAt, ← h.scrolled, Nat.zero_add, Nat.sub_zero]
  generalize hq : (i + R) * W + j = q
  by_cases hin : q < text.length
  · rw [if_pos ⟨Nat.zero_le q, hin⟩, List.getElem?_eq_getElem hin, List.getD_eq_getElem _ _ hin]
    rfl
  · rw [if_neg fun hc => hin hc.2, List.getElem?_eq_none (Nat.le_of_not_lt hin)]
    by_cases hold : i + R < H
    · rw [if_pos hold, hsc _ hold _ hj]
      rfl
    · rw [if_neg hold]
      rfl

/-- **A text is where it should be**: whatever a process has done to its terminal before, after a
reset the screen shows the text that it writes, in UTF-8 and of characters that are one column wide,
from the first place on, folded at the end of each line; of a text that is longer than the screen,
the last rows. All other places are blank. -/
theorem reset_then_text {evs : List TermEvent} (hevs : ∀ ev ∈ evs, ev.Fits) {text : List Char}
    (htext : ∀ c ∈ text, wcwidth c.toNat = 1) :
    ∃ s s', processRun evs = .ok s ∧ s.input (resetAll ++ utf8 text) = .ok s' ∧
      ∀ i < s.tek.winsize.tpRow, ∀ j < s.tek.winsize.tpCol, s'.pp.cell i j =
        some (foldedAt s.tek.winsize.tpRow s.tek.winsize.tpCol text i j) := by
  obtain ⟨s, hrun, h⟩ := (processRun_ready hevs).exists_ok
  obtain ⟨s1, sc, hrun1, h1, hblank⟩ := resetAll_spec h
  obtain ⟨s2, R, hrun2, h2⟩ := h1.all text htext
  refine ⟨s, s2, hrun, ?_, fun i hi j hj => h2.cell hblank hi hj⟩
  rw [Emu.input, run_append]
  exact bind_eq_ok.mpr ⟨s1, hrun1, hrun2⟩

theorem reset_then_text_two_rows :
    ∃ s s', processRun [.winsz 2 3, .output (27 :: ascii "[=1T")] = .ok s ∧
      s.input (resetAll ++ utf8 ['a', 'b', 'c', 'd', 'e', 'f', 'g']) = .ok s' ∧
      ∀ i < s.tek.winsize.tpRow, ∀ j < s.tek.winsize.tpCol, s'.pp.cell i j =
        some (foldedAt s.tek.winsize.tpRow s.tek.winsize.tpCol
          ['a', 'b', 'c', 'd', 'e', 'f', 'g'] i j) :=
  reset_then_text (by decide) fun c hc => by
    fin_cases hc <;> exact wcwidth_ascii (by decide) (by decide)

/-! ## Narrow windows -/

section

variable {s : Emu}

theorem funcsCursor_fails
    (h : ¬(s.tek.cursor.tpRow < s.tek.winsize.tpRow ∧ s.tek.cursor.tpCol < s.tek.winsize.tpCol)) :
    funcsCursor s = .error .assert := by
  rw [funcsCursor]
  by_cases hrow : s.tek.cursor.tpRow < s.tek.winsize.tpRow
  · have hcol : ¬s.tek.cursor.tpCol < s.tek.winsize.tpCol := fun hc => h ⟨hrow, hc⟩
    rw [decide_eq_true hrow, decide_eq_false hcol]
    rfl
  · rw [decide_eq_false hrow]
    rfl

/-- What is wrapped to the next line is as wide as the line, and the cursor is behind it. -/
theorem toLine_aborts (h : ∃ sc, Win s.tek.winsize s.pp sc) {c w row : Nat} (hw : 0 < w)
    (hrow : row < s.tek.winsize.tpRow) (hwide : s.tek.winsize.tpCol ≤ w) :
    printWrap.toLine c w s row = .error .assert := by
  have hcol : 0 < s.tek.winsize.tpCol := by
    obtain ⟨sc, h⟩ := h
    exact h.col_pos
  obtain ⟨_, hrun, pp, _, rfl, _⟩ := (@doPutchar_draws s h ⟨row, 0⟩ c w hrow hcol hw).exists_ok
  rw [printWrap.toLine, hrun, ok_bind]
  exact funcsCursor_fails fun hc => Nat.not_lt.mpr hwide hc.2

theorem printWrap_aborts {sc : Screen} (h : Win s.tek.winsize s.pp sc) (hp : Plain s.tek)
    {c w : Nat} (hw : 0 < w) (hrow : s.tek.cursor.tpRow < s.tek.winsize.tpRow)
    (hwide : s.tek.winsize.tpCol ≤ w) : printWrap s c w = .error .assert := by
  rw [printWrap, hp.scroll]
  dsimp only
  by_cases hlast : s.tek.cursor.tpRow = s.tek.winsize.tpRow - 1
  · obtain ⟨pp, sc1, hrun, hwin, _⟩ := doScroll_plain h hrow.le hp.scroll
    rw [if_pos hlast, hrun, ok_bind, hp.scroll]
    exact @toLine_aborts { s with pp := pp } ⟨sc1, hwin⟩ c w _ hw (by dsimp only; omega) hwide
  · rw [if_neg hlast, if_neg (by omega)]
    exact toLine_aborts ⟨sc, h⟩ hw (by omega) hwide

theorem check_bind_or {b : Bool} {x : Res Emu} (h : x = .ok s ∨ x = .error .assert) :
    (check b >>= fun _ => x) = .ok s ∨ (check b >>= fun _ => x) = .error .assert := by
  cases b with
  | false => exact Or.inr rfl
  | true => exact h

theorem postInput_or (s : Emu) : postInput s = .ok s ∨ postInput s = .error .assert :=
  check_bind_or (check_bind_or (check_bind_or (check_bind_or (check_bind_or (check_bind_or
    (check_bind_or (check_bind_or (check_bind_or (Or.inl rfl)))))))))

/-- A character that is printed, with the assertions behind it. -/
theorem Plain.char {s : Emu} (h : Plain s.tek) {c : Char} (hc : 32 ≤ c.toNat) :
    run inputByte s (String.utf8EncodeChar c) =
      regularCharacter (s.decoded c) c.toNat >>= postInput := by
  have hp : Plain (s.decoded c).tek := { h with }
  rw [utf8_char h.bit8, inputChar_eq hp.instring, hp.dispatch hc]

theorem trimCursorPos_eq (t : Teken) (p : Pos) :
    ∃ cur, trimCursorPos t p = { t with cursor := cur } := by
  unfold trimCursorPos
  split
  · exact ⟨_, rfl⟩
  · exact ⟨_, rfl⟩

/-- A character that is as wide as the line, and has to go to the next one. -/
theorem wide_char_aborts {sc : Screen} (hw : Win s.tek.winsize s.pp sc) (hp : Plain s.tek)
    (hrow : s.tek.cursor.tpRow < s.tek.winsize.tpRow) {c : Char}
    (hc : wcwidth c.toNat = (s.tek.winsize.tpCol : Nat))
    (hnext : (s.tek.wrapped ∧ s.tek.cursor.tpCol + 1 = s.tek.winsize.tpCol) ∨
      s.tek.cursor.tpCol + s.tek.winsize.tpCol > s.tek.winsize.tpCol) :
    run inputByte s (String.utf8EncodeChar c) = .error .assert := by
  have hge : 32 ≤ c.toNat := ge_of_wcwidth (by rw [hc]; exact Int.natCast_pos.mpr hw.col_pos)
  have hp' : Plain (s.decoded c).tek := { hp with }
  have hreg := (hp'.regular hc hw.col_pos).trans (if_pos hnext)
  rw [@printWrap_aborts (s.decoded c) sc hw hp' c.toNat s.tek.winsize.tpCol hw.col_pos hrow
    (Nat.le_refl _)] at hreg
  rw [hp.char hge, hreg]
  rfl

/-- A character of width one in the first place, and then one that is as wide as the line. -/
theorem narrow_text_aborts {sc : Screen} (hw : Win s.tek.winsize s.pp sc) (hp : Plain s.tek)
    (hcur : s.tek.cursor = ⟨0, 0⟩) (hwr : s.tek.wrapped = false) {c : Char}
    (hc : wcwidth c.toNat = (s.tek.winsize.tpCol : Nat)) (hnarrow : s.tek.winsize.tpCol ≤ 2) :
    s.input (utf8 ['a', c]) = .error .assert := by
  have hrow := hw.row_pos
  have hcol := hw.col_pos
  have hwa : wcwidth 'a'.toNat = 1 := wcwidth_ascii (by decide) (by decide)
  have hp1 : Plain (s.decoded 'a').tek := { hp with }
  have hcur1 : (s.decoded 'a').tek.cursor = ⟨0, 0⟩ := hcur
  obtain ⟨pp1, hrun1, hwin1⟩ := @printPlain_plain (s.decoded 'a') sc hw hp.insert 'a'.toNat
    (by rw [hcur1]; exact hrow) (by rw [hcur1]; exact hcol)
  have hreg1 := hp1.regular (w := 1) hwa Nat.one_pos
  have hstay : ¬(((s.decoded 'a').tek.wrapped = true ∧
      (s.decoded 'a').tek.cursor.tpCol + 1 = (s.decoded 'a').tek.winsize.tpCol) ∨
      (s.decoded 'a').tek.cursor.tpCol + 1 > (s.decoded 'a').tek.winsize.tpCol) := by
    have hwr1 : (s.decoded 'a').tek.wrapped = false := hwr
    rw [hwr1, hcur1]
    show ¬((false = true ∧ _) ∨ 0 + 1 > s.tek.winsize.tpCol)
    simp
    omega
  rw [if_neg hstay, hrun1] at hreg1
  have hutf8 : utf8 ['a', c] = String.utf8EncodeChar 'a' ++ String.utf8EncodeChar c := by
    rw [utf8, List.flatMap_cons, List.flatMap_cons, List.flatMap_nil, List.append_nil]
  rw [Emu.input, hutf8, run_append, hp.char (by decide), hreg1, ok_bind]
  rcases postInput_or _ with hpost | hpost
  · rw [hpost, ok_bind]
    apply wide_char_aborts
    · exact hwin1
    · exact { hp with }
    · show (s.decoded 'a').tek.cursor.tpRow < s.tek.winsize.tpRow
      rw [hcur1]
      exact hrow
    · exact hc
    · -- in one column a wrap is due; in two there is one left
      show ((decide ((s.decoded 'a').tek.cursor.tpCol + 1 = s.tek.winsize.tpCol)) = true ∧
        min ((s.decoded 'a').tek.cursor.tpCol + 1) (s.tek.winsize.tpCol - 1) + 1 =
          s.tek.winsize.tpCol) ∨
        min ((s.decoded 'a').tek.cursor.tpCol + 1) (s.tek.winsize.tpCol - 1) +
          s.tek.winsize.tpCol > s.tek.winsize.tpCol
      rw [hcur1]
      dsimp only
      by_cases hone : s.tek.winsize.tpCol = 1
      · exact Or.inl ⟨decide_eq_true (by omega), by omega⟩
      · exact Or.inr (by omega)
  · rw [hpost]
    rfl

/-- No cursor is in a window without rows or columns. -/
theorem return_aborts (hp : Plain s.tek)
    (h : s.tek.winsize.tpRow = 0 ∨ s.tek.winsize.tpCol = 0) : inputByte s 13 = .error .assert := by
  have hin : (s.upd fun t => { t with utf8Left := 0 }).tek.instring = false := hp.instring
  have hcr : dispatch (s.upd fun t => { t with utf8Left := 0 }) (13 : UInt8).toNat =
      .error .assert := by
    refine funcsCursor_fails fun hc => ?_
    have hrow : s.tek.cursor.tpRow < s.tek.winsize.tpRow := hc.1
    have hcol : 0 < s.tek.winsize.tpCol := hc.2
    omega
  rw [inputByte, if_pos (Or.inl (by decide)), inputChar_eq hin, hcr]
  rfl

theorem wcwidth_hiragana : wcwidth 'あ'.toNat = 2 := by decide +kernel

end

/-- **A window can be too narrow**: in every window that `-winsz` accepts and that has, as an
`unsigned short`, no rows or fewer than three columns, there is something that a process can write
to make an assertion of the emulation fail. -/
theorem narrow_window_aborts {lin col : Nat} (hlin : 1 < lin) (hcol : 1 < col)
    (h : lin % 65536 = 0 ∨ col % 65536 < 3) :
    ∃ buf, processRun [.winsz lin col, .output buf] = .error .assert := by
  obtain ⟨pp0, sc0, hw0, hrun0⟩ := processNew_spec
  obtain ⟨pp1, hrun1, hs1, _⟩ := termResize_shows (Or.inr hw0.shows) lin col
  obtain ⟨cur, hcur⟩ := trimCursorPos_eq
    { setWinsize tekenInit ⟨24, 80⟩ with cursor := ⟨0, 8⟩ } ⟨lin % 65536, col % 65536⟩
  have hstep : ∀ buf, processRun [.winsz lin col, .output buf] = Emu.input
      { tek := setWinsize { setWinsize tekenInit ⟨24, 80⟩ with cursor := ⟨0, 8⟩ }
          ⟨lin % 65536, col % 65536⟩
        pp := pp1
        responses := [] } buf := by
    intro buf
    rw [processRun, hrun0, ok_bind, run_cons, TermEvent.step, decide_eq_true hlin,
      decide_eq_true hcol]
    show (termResize pp0 lin col >>= _) >>= _ = _
    rw [hrun1]
    exact run_singleton _ _
  have hplain : Plain (setWinsize { setWinsize tekenInit ⟨24, 80⟩ with cursor := ⟨0, 8⟩ }
      ⟨lin % 65536, col % 65536⟩) := by
    rw [setWinsize, hcur]
    exact ⟨rfl, rfl, rfl, rfl, rfl, rfl, rfl, rfl⟩
  by_cases hempty : lin % 65536 = 0 ∨ col % 65536 = 0
  · refine ⟨[13], ?_⟩
    rw [hstep, Emu.input, run_singleton]
    exact return_aborts hplain hempty
  · obtain ⟨hrow, hcol0⟩ := not_or.mp hempty
    have hw : Win ⟨lin % 65536, col % 65536⟩ pp1 (sc0.resize lin col) :=
      ⟨hs1, by rw [hs1.nlin]; rfl, by rw [hs1.ncol]; rfl, Nat.pos_of_ne_zero hrow,
        Nat.pos_of_ne_zero hcol0⟩
    have hchar : ∃ c : Char, wcwidth c.toNat = (col % 65536 : Nat) := by
      by_cases hone : col % 65536 = 1
      · exact ⟨'a', by rw [hone]; exact wcwidth_ascii (by decide) (by decide)⟩
      · exact ⟨'あ', by rw [show col % 65536 = 2 by omega]; exact wcwidth_hiragana⟩
    obtain ⟨c, hc⟩ := hchar
    have hnarrow : col % 65536 ≤ 2 := by omega
    refine ⟨utf8 ['a', c], ?_⟩
    rw [hstep]
    exact narrow_text_aborts hw hplain rfl rfl hc hnarrow

theorem narrow_window_aborts_two_columns :
    ∃ buf, processRun [.winsz 25 2, .output buf] = .error .assert :=
  narrow_window_aborts (by decide) (by decide) (by decide)

end Term
end VTest
