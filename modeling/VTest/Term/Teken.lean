import VTest.Term.Screen

/-!
# VTest.Term.Teken

The terminal emulation (`teken.c`, `teken_subr.h`, `teken_subr_compat.h`): its state, what it draws,
and what each escape sequence does. It draws through callbacks, which are those of `vtc_process.c`
here. Each of them asserts first that what it draws is in the window that the emulation knows of.

Rows and columns are `unsigned short`. The one sum that can leave their range is the column after a
character, which is taken modulo 65536. Arguments of sequences are less than `UINT_MAX / 10`, so no
other sum wraps. Attributes and colours are left out: nothing of them reaches the screen. So are
the bell, the cursor keys, and the parameters (`tf_param`) that `vtc_process.c` ignores, which is
all but the number of columns.

* `Teken`, `Emu`: the emulation, and a process with its screen and what was sent to it.
* `doScroll`, `doPutchar`, `regularCharacter`: what is drawn when a character arrives.
* `Cmd`, `Cmd.exec`: the escape sequences.
-/

namespace VTest
namespace Term

/-! ## State -/

/-- `teken_span_t`: rows from `tsBegin` on, to the one before `tsEnd`. -/
structure Span where
  tsBegin : Nat
  tsEnd : Nat
  deriving DecidableEq, Repr

/-- `teken_scs_t`: the character sets. -/
inductive Scs where
  | specialGraphics
  | ukNational
  | usAscii
  deriving DecidableEq, Repr

/-- `teken_state_t`: the beginnings of sequences, as `gensequences` makes them. -/
inductive State where
  | init
  /-- `^[` -/
  | esc
  /-- `^[ [` -/
  | csi
  /-- `^[ [ SP` -/
  | csiSp
  /-- `^[ [ ?` -/
  | csiQuery
  /-- `^[ [ >` -/
  | csiGreater
  /-- `^[ [ =` -/
  | csiEqual
  /-- `^[ #` -/
  | hash
  /-- `^[ (` -/
  | g0
  /-- `^[ )` -/
  | g1
  deriving DecidableEq, Repr

/-- `T_NUMSIZE`. -/
def numSize : Nat := 8

/-- `T_NUMCOL`. -/
def numCol : Nat := 160

/-- `struct __teken`, with the flags of `t_stateflags` one by one. -/
structure Teken where
  nextstate : State
  firstdigit : Bool
  insert : Bool
  autowrap : Bool
  origin : Bool
  wrapped : Bool
  bit8 : Bool
  cons25 : Bool
  instring : Bool
  nums : Nat → Nat
  curnum : Nat
  cursor : Pos
  savedCursor : Pos
  winsize : Pos
  scrollreg : Span
  originreg : Span
  tabstops : Nat → Bool
  utf8Left : Nat
  utf8Partial : Nat
  last : Nat
  curscs : Bool
  savedCurscs : Scs
  scs0 : Scs
  scs1 : Scs

/-- `struct process`: the emulation, the screen, and what `term_respond` was given. -/
structure Emu where
  tek : Teken
  pp : Process
  responses : List Bytes

def Emu.upd (s : Emu) (f : Teken → Teken) : Emu := { s with tek := f s.tek }

/-! ## Callbacks -/

/-- `BLANK`. -/
def blank : UInt32 := 32

def funcsCursor (s : Emu) : Res Emu := do
  check (s.tek.cursor.tpRow < s.tek.winsize.tpRow)
  check (s.tek.cursor.tpCol < s.tek.winsize.tpCol)
  return s

def funcsPutchar (s : Emu) (p : Pos) (c : UInt32) : Res Emu := do
  check (p.tpRow < s.tek.winsize.tpRow)
  check (p.tpCol < s.tek.winsize.tpCol)
  let pp ← termPutchar s.pp p c
  return { s with pp := pp }

def funcsFill (s : Emu) (r : Rect) (c : UInt32) : Res Emu := do
  check (r.trEnd.tpRow > r.trBegin.tpRow)
  check (r.trEnd.tpRow ≤ s.tek.winsize.tpRow)
  check (r.trEnd.tpCol > r.trBegin.tpCol)
  check (r.trEnd.tpCol ≤ s.tek.winsize.tpCol)
  let pp ← termFill s.pp r c
  return { s with pp := pp }

def funcsCopy (s : Emu) (r : Rect) (p : Pos) : Res Emu := do
  check (r.trEnd.tpRow > r.trBegin.tpRow)
  check (r.trEnd.tpRow ≤ s.tek.winsize.tpRow)
  check (r.trEnd.tpCol > r.trBegin.tpCol)
  check (r.trEnd.tpCol ≤ s.tek.winsize.tpCol)
  check (p.tpRow + (r.trEnd.tpRow - r.trBegin.tpRow) ≤ s.tek.winsize.tpRow)
  check (p.tpCol + (r.trEnd.tpCol - r.trBegin.tpCol) ≤ s.tek.winsize.tpCol)
  let pp ← termCopy s.pp r p
  return { s with pp := pp }

def funcsRespond (s : Emu) (b : Bytes) : Emu := { s with responses := s.responses ++ [b] }

/-! ## Tabs -/

def tabIsset (t : Teken) (col : Nat) : Bool :=
  if col ≥ numCol then col % 8 = 0 else t.tabstops col

def tabClear (t : Teken) (col : Nat) : Teken :=
  if col ≥ numCol then t else { t with tabstops := Function.update t.tabstops col false }

def tabSet (t : Teken) (col : Nat) : Teken :=
  if col ≥ numCol then t else { t with tabstops := Function.update t.tabstops col true }

/-- `teken_tab_default`: a tab in every eighth column but the first. -/
def tabDefault (t : Teken) : Teken :=
  { t with tabstops := fun col => col ≠ 0 ∧ col % 8 = 0 }

/-- The column after `ntabs` tabs to the right. `left` columns are right of it. -/
def forwardTab (t : Teken) : (left col ntabs : Nat) → Nat
  | 0, col, _ => col
  | left + 1, col, ntabs =>
    let ntabs := if tabIsset t (col + 1) then ntabs - 1 else ntabs
    if ntabs > 0 then forwardTab t left (col + 1) ntabs else col + 1

/-- The column after `ntabs` tabs to the left. -/
def backwardTab (t : Teken) : (col ntabs : Nat) → Nat
  | 0, _ => 0
  | col + 1, ntabs =>
    let ntabs := if tabIsset t col then ntabs - 1 else ntabs
    if ntabs > 0 then backwardTab t col ntabs else col

/-! ## Reset and resize -/

def saveCursor (t : Teken) : Teken :=
  { t with savedCursor := t.cursor, savedCurscs := if t.curscs then t.scs1 else t.scs0 }

def doReset (t : Teken) : Teken :=
  let t :=
    { t with
      cursor := ⟨0, 0⟩
      scrollreg := ⟨0, t.winsize.tpRow⟩
      originreg := ⟨0, t.winsize.tpRow⟩
      firstdigit := false, insert := false, origin := false, wrapped := false, instring := false
      autowrap := true
      scs0 := .usAscii
      scs1 := .usAscii
      curscs := false }
  tabDefault (saveCursor t)

def trimCursorPos (t : Teken) (new : Pos) : Teken :=
  if t.winsize.tpRow < new.tpRow ∨ t.winsize.tpCol < new.tpCol then t
  else
    { t with cursor :=
      { tpRow := if t.cursor.tpRow ≥ new.tpRow then new.tpRow - 1 else t.cursor.tpRow
        tpCol := if t.cursor.tpCol ≥ new.tpCol then new.tpCol - 1 else t.cursor.tpCol } }

def setWinsize (t : Teken) (p : Pos) : Teken := doReset { trimCursorPos t p with winsize := p }

/-- `term_resize` with its last call. -/
def Emu.resize (s : Emu) (lin col : Nat) : Res Emu := do
  let pp ← termResize s.pp lin col
  return { s with pp := pp, tek := setWinsize s.tek ⟨lin % 65536, col % 65536⟩ }

/-- `teken_funcs_param(t, TP_132COLS, v)`. -/
def funcsParam132 (s : Emu) (v : Bool) : Res Emu := s.resize s.pp.nlin (if v then 132 else 80)

/-! ## Drawing -/

def doScrollDown (s : Emu) (amount : Nat) : Res Emu :=
  let b := s.tek.scrollreg.tsBegin
  let e := s.tek.scrollreg.tsEnd
  let w := s.tek.winsize.tpCol
  if b + amount < e then do
    let s ← funcsCopy s ⟨⟨b + amount, 0⟩, ⟨e, w⟩⟩ ⟨b, 0⟩
    funcsFill s ⟨⟨e - amount, 0⟩, ⟨e, w⟩⟩ blank
  else funcsFill s ⟨⟨b, 0⟩, ⟨e, w⟩⟩ blank

def doScrollUp (s : Emu) (amount : Nat) : Res Emu :=
  let b := s.tek.scrollreg.tsBegin
  let e := s.tek.scrollreg.tsEnd
  let w := s.tek.winsize.tpCol
  if b + amount < e then do
    let s ← funcsCopy s ⟨⟨b, 0⟩, ⟨e - amount, w⟩⟩ ⟨b + amount, 0⟩
    funcsFill s ⟨⟨b, 0⟩, ⟨b + amount, w⟩⟩ blank
  else funcsFill s ⟨⟨b, 0⟩, ⟨e, w⟩⟩ blank

def doScroll (s : Emu) (amount : Int) : Res Emu := do
  check (s.tek.cursor.tpRow ≤ s.tek.winsize.tpRow)
  check (s.tek.scrollreg.tsEnd ≤ s.tek.winsize.tpRow)
  check (amount ≠ 0)
  if amount > 0 then doScrollDown s amount.toNat else doScrollUp s (-amount).toNat

/-- The second half of a wide character. -/
def putRight (s : Emu) (tp : Pos) (c width : Nat) : Res Emu :=
  if width = 2 ∧ tp.tpCol + 1 < s.tek.winsize.tpCol then
    funcsPutchar s ⟨tp.tpRow, tp.tpCol + 1⟩ (UInt32.ofNat c)
  else .ok s

/-- Insert mode moves what is there to the right. -/
def makeRoom (s : Emu) (tp : Pos) (width : Nat) : Res Emu :=
  if s.tek.insert ∧ tp.tpCol + width < s.tek.winsize.tpCol then
    funcsCopy s ⟨tp, ⟨tp.tpRow + 1, s.tek.winsize.tpCol - width⟩⟩ ⟨tp.tpRow, tp.tpCol + width⟩
  else .ok s

def doPutchar (s : Emu) (tp : Pos) (c width : Nat) : Res Emu := do
  let s := s.upd fun t => { t with last := c }
  let s ← makeRoom s tp width
  let s ← funcsPutchar s tp (UInt32.ofNat c)
  putRight s tp c width

/-! ## Characters -/

/-- `teken_boxdrawing_unicode`. -/
def boxdrawingUnicode : List Nat :=
  [0x25c6, 0x2592, 0x2409, 0x240c, 0x240d, 0x240a, 0x00b0, 0x00b1,
   0x2424, 0x240b, 0x2518, 0x2510, 0x250c, 0x2514, 0x253c, 0x23ba,
   0x23bb, 0x2500, 0x23bc, 0x23bd, 0x251c, 0x2524, 0x2534, 0x252c,
   0x2502, 0x2264, 0x2265, 0x03c0, 0x2260, 0x00a3, 0x00b7]

/-- `teken_boxdrawing_8bit`. -/
def boxdrawing8bit : List Nat :=
  "??HFCL??NV+++++-----++++|??????".toList.map Char.toNat

def scsProcess (t : Teken) (c : Nat) : Nat :=
  match if t.curscs then t.scs1 else t.scs0 with
  | .specialGraphics =>
    if c ≥ 0x60 ∧ c ≤ 0x7e then
      (if t.bit8 then boxdrawing8bit else boxdrawingUnicode).getD (c - 0x60) 0
    else c
  | .ukNational => if c = 0x23 then (if t.bit8 then 0x9c else 0xa3) else c
  | .usAscii => c

/-- `combining` of `teken_wcwidth`. -/
def combining : List (Nat × Nat) :=
  [(0x0300, 0x036F), (0x0483, 0x0486), (0x0488, 0x0489),
   (0x0591, 0x05BD), (0x05BF, 0x05BF), (0x05C1, 0x05C2),
   (0x05C4, 0x05C5), (0x05C7, 0x05C7), (0x0600, 0x0603),
   (0x0610, 0x0615), (0x064B, 0x065E), (0x0670, 0x0670),
   (0x06D6, 0x06E4), (0x06E7, 0x06E8), (0x06EA, 0x06ED),
   (0x070F, 0x070F), (0x0711, 0x0711), (0x0730, 0x074A),
   (0x07A6, 0x07B0), (0x07EB, 0x07F3), (0x0901, 0x0902),
   (0x093C, 0x093C), (0x0941, 0x0948), (0x094D, 0x094D),
   (0x0951, 0x0954), (0x0962, 0x0963), (0x0981, 0x0981),
   (0x09BC, 0x09BC), (0x09C1, 0x09C4), (0x09CD, 0x09CD),
   (0x09E2, 0x09E3), (0x0A01, 0x0A02), (0x0A3C, 0x0A3C),
   (0x0A41, 0x0A42), (0x0A47, 0x0A48), (0x0A4B, 0x0A4D),
   (0x0A70, 0x0A71), (0x0A81, 0x0A82), (0x0ABC, 0x0ABC),
   (0x0AC1, 0x0AC5), (0x0AC7, 0x0AC8), (0x0ACD, 0x0ACD),
   (0x0AE2, 0x0AE3), (0x0B01, 0x0B01), (0x0B3C, 0x0B3C),
   (0x0B3F, 0x0B3F), (0x0B41, 0x0B43), (0x0B4D, 0x0B4D),
   (0x0B56, 0x0B56), (0x0B82, 0x0B82), (0x0BC0, 0x0BC0),
   (0x0BCD, 0x0BCD), (0x0C3E, 0x0C40), (0x0C46, 0x0C48),
   (0x0C4A, 0x0C4D), (0x0C55, 0x0C56), (0x0CBC, 0x0CBC),
   (0x0CBF, 0x0CBF), (0x0CC6, 0x0CC6), (0x0CCC, 0x0CCD),
   (0x0CE2, 0x0CE3), (0x0D41, 0x0D43), (0x0D4D, 0x0D4D),
   (0x0DCA, 0x0DCA), (0x0DD2, 0x0DD4), (0x0DD6, 0x0DD6),
   (0x0E31, 0x0E31), (0x0E34, 0x0E3A), (0x0E47, 0x0E4E),
   (0x0EB1, 0x0EB1), (0x0EB4, 0x0EB9), (0x0EBB, 0x0EBC),
   (0x0EC8, 0x0ECD), (0x0F18, 0x0F19), (0x0F35, 0x0F35),
   (0x0F37, 0x0F37), (0x0F39, 0x0F39), (0x0F71, 0x0F7E),
   (0x0F80, 0x0F84), (0x0F86, 0x0F87), (0x0F90, 0x0F97),
   (0x0F99, 0x0FBC), (0x0FC6, 0x0FC6), (0x102D, 0x1030),
   (0x1032, 0x1032), (0x1036, 0x1037), (0x1039, 0x1039),
   (0x1058, 0x1059), (0x1160, 0x11FF), (0x135F, 0x135F),
   (0x1712, 0x1714), (0x1732, 0x1734), (0x1752, 0x1753),
   (0x1772, 0x1773), (0x17B4, 0x17B5), (0x17B7, 0x17BD),
   (0x17C6, 0x17C6), (0x17C9, 0x17D3), (0x17DD, 0x17DD),
   (0x180B, 0x180D), (0x18A9, 0x18A9), (0x1920, 0x1922),
   (0x1927, 0x1928), (0x1932, 0x1932), (0x1939, 0x193B),
   (0x1A17, 0x1A18), (0x1B00, 0x1B03), (0x1B34, 0x1B34),
   (0x1B36, 0x1B3A), (0x1B3C, 0x1B3C), (0x1B42, 0x1B42),
   (0x1B6B, 0x1B73), (0x1DC0, 0x1DCA), (0x1DFE, 0x1DFF),
   (0x200B, 0x200F), (0x202A, 0x202E), (0x2060, 0x2063),
   (0x206A, 0x206F), (0x20D0, 0x20EF), (0x302A, 0x302F),
   (0x3099, 0x309A), (0xA806, 0xA806), (0xA80B, 0xA80B),
   (0xA825, 0xA826), (0xFB1E, 0xFB1E), (0xFE00, 0xFE0F),
   (0xFE20, 0xFE23), (0xFEFF, 0xFEFF), (0xFFF9, 0xFFFB),
   (0x10A01, 0x10A03), (0x10A05, 0x10A06), (0x10A0C, 0x10A0F),
   (0x10A38, 0x10A3A), (0x10A3F, 0x10A3F), (0x1D167, 0x1D169),
   (0x1D173, 0x1D182), (0x1D185, 0x1D18B), (0x1D1AA, 0x1D1AD),
   (0x1D242, 0x1D244), (0xE0001, 0xE0001), (0xE0020, 0xE007F),
   (0xE0100, 0xE01EF)]

/-- The loop of `bisearch`. `max` is one more than in the source; it bounds the steps as well. -/
def bisearchLoop (ucs : Nat) (table : List (Nat × Nat)) : (fuel min max : Nat) → Bool
  | 0, _, _ => false
  | fuel + 1, min, max =>
    if max > min then
      let mid := (min + (max - 1)) / 2
      let iv := table.getD mid (0, 0)
      if ucs > iv.2 then bisearchLoop ucs table fuel (mid + 1) max
      else if ucs < iv.1 then bisearchLoop ucs table fuel min mid
      else true
    else false

def bisearch (ucs : Nat) (table : List (Nat × Nat)) : Bool :=
  if ucs < (table.getD 0 (0, 0)).1 ∨ ucs > (table.getD (table.length - 1) (0, 0)).2 then false
  else bisearchLoop ucs table (table.length + 1) 0 table.length

def wcwidth (ucs : Nat) : Int :=
  if ucs = 0 then 0
  else if ucs < 32 ∨ (ucs ≥ 0x7f ∧ ucs < 0xa0) then -1
  else if bisearch ucs combining then 0
  else if ucs ≥ 0x1100 ∧
      (ucs ≤ 0x115f ∨ ucs = 0x2329 ∨ ucs = 0x232a ∨
        (ucs ≥ 0x2e80 ∧ ucs ≤ 0xa4cf ∧ ucs ≠ 0x303f) ∨
        (ucs ≥ 0xac00 ∧ ucs ≤ 0xd7a3) ∨ (ucs ≥ 0xf900 ∧ ucs ≤ 0xfaff) ∨
        (ucs ≥ 0xfe10 ∧ ucs ≤ 0xfe19) ∨ (ucs ≥ 0xfe30 ∧ ucs ≤ 0xfe6f) ∨
        (ucs ≥ 0xff00 ∧ ucs ≤ 0xff60) ∨ (ucs ≥ 0xffe0 ∧ ucs ≤ 0xffe6) ∨
        (ucs ≥ 0x20000 ∧ ucs ≤ 0x2fffd) ∨ (ucs ≥ 0x30000 ∧ ucs ≤ 0x3fffd)) then 2
  else 1

/-- What is to be drawn for a character, and its width; nothing for some. -/
def printed (t : Teken) (c : Nat) : Option (Nat × Nat) :=
  if t.bit8 then
    if !t.cons25 ∧ (c ≤ 0x1b ∨ c = 0x7f) then none else some (scsProcess t c, 1)
  else
    let c := scsProcess t c
    if wcwidth c ≤ 0 then none else some (c, (wcwidth c).toNat)

/-- `regular_character` in `cons25` mode. -/
def printCons25 (s : Emu) (c width : Nat) : Res Emu := do
  let s ← doPutchar s s.tek.cursor c width
  let col := (s.tek.cursor.tpCol + width) % 65536
  if col ≥ s.tek.winsize.tpCol then
    if s.tek.cursor.tpRow = s.tek.scrollreg.tsEnd - 1 then
      -- the cursor is still behind the line while it scrolls
      let s ← doScroll (s.upd fun t => { t with cursor := ⟨t.cursor.tpRow, col⟩ }) 1
      return s.upd fun t => { t with cursor := ⟨t.cursor.tpRow, 0⟩ }
    else
      let row := if s.tek.cursor.tpRow < s.tek.winsize.tpRow - 1 then s.tek.cursor.tpRow + 1
        else s.tek.cursor.tpRow
      return s.upd fun t => { t with cursor := ⟨row, 0⟩ }
  else return s.upd fun t => { t with cursor := ⟨t.cursor.tpRow, col⟩ }

/-- A character that goes to the next line. -/
def printWrap (s : Emu) (c width : Nat) : Res Emu :=
  if s.tek.cursor.tpRow = s.tek.scrollreg.tsEnd - 1 then do
    let s ← doScroll s 1
    toLine s (s.tek.scrollreg.tsEnd - 1)
  else if s.tek.cursor.tpRow + 1 = s.tek.winsize.tpRow then
    -- outside of the scrolling region, at the bottom of the screen
    doPutchar s s.tek.cursor c width
  else toLine s (s.tek.cursor.tpRow + 1)
where
  toLine (s : Emu) (row : Nat) : Res Emu := do
    let s ← doPutchar s ⟨row, 0⟩ c width
    funcsCursor (s.upd fun t => { t with cursor := ⟨row, width⟩, wrapped := false })

/-- A character that fits, or has to stay on the line. -/
def printPlain (s : Emu) (c width : Nat) : Res Emu := do
  let s ← doPutchar s s.tek.cursor c width
  let col := (s.tek.cursor.tpCol + width) % 65536
  let wrapped := decide (col ≥ s.tek.winsize.tpCol)
  let col := if wrapped then s.tek.winsize.tpCol - 1 else col
  funcsCursor (s.upd fun t => { t with cursor := ⟨t.cursor.tpRow, col⟩, wrapped := wrapped })

def regularCharacter (s : Emu) (c : Nat) : Res Emu :=
  match printed s.tek c with
  | none => .ok s
  | some (c, width) =>
    if s.tek.cons25 then do
      let s ← printCons25 s c width
      funcsCursor s
    else if s.tek.autowrap ∧
        ((s.tek.wrapped ∧ s.tek.cursor.tpCol + 1 = s.tek.winsize.tpCol) ∨
          s.tek.cursor.tpCol + width > s.tek.winsize.tpCol) then
      printWrap s c width
    else printPlain s c width

/-! ## Moving the cursor -/

/-- The cursor goes to a place, and no wrap is due any more. -/
def moveTo (s : Emu) (row col : Nat) : Res Emu :=
  funcsCursor (s.upd fun t => { t with cursor := ⟨row, col⟩, wrapped := false })

/-- The cursor goes to a column, and a wrap that is due stays due. -/
def setCol (s : Emu) (col : Nat) : Emu :=
  s.upd fun t => { t with cursor := ⟨t.cursor.tpRow, col⟩ }

def backspace (s : Emu) : Res Emu :=
  let row := s.tek.cursor.tpRow
  let col := s.tek.cursor.tpCol
  if s.tek.cons25 then
    if col = 0 then
      if row = s.tek.originreg.tsBegin then .ok s
      else funcsCursor (s.upd fun t => { t with cursor := ⟨row - 1, t.winsize.tpCol - 1⟩ })
    else funcsCursor (setCol s (col - 1))
  else if col = 0 then .ok s
  else moveTo s row (col - 1)

def carriageReturn (s : Emu) : Res Emu := moveTo s s.tek.cursor.tpRow 0

def cursorBackward (s : Emu) (ncols : Nat) : Res Emu :=
  moveTo s s.tek.cursor.tpRow
    (if ncols > s.tek.cursor.tpCol then 0 else s.tek.cursor.tpCol - ncols)

def cursorBackwardTabulation (s : Emu) (ntabs : Nat) : Res Emu :=
  funcsCursor (setCol s (backwardTab s.tek s.tek.cursor.tpCol ntabs))

def cursorDown (s : Emu) (nrows : Nat) : Res Emu :=
  moveTo s
    (if s.tek.cursor.tpRow + nrows ≥ s.tek.scrollreg.tsEnd then s.tek.scrollreg.tsEnd - 1
      else s.tek.cursor.tpRow + nrows) s.tek.cursor.tpCol

def cursorForward (s : Emu) (ncols : Nat) : Res Emu :=
  moveTo s s.tek.cursor.tpRow
    (if s.tek.cursor.tpCol + ncols ≥ s.tek.winsize.tpCol then s.tek.winsize.tpCol - 1
      else s.tek.cursor.tpCol + ncols)

def cursorForwardTabulation (s : Emu) (ntabs : Nat) : Res Emu :=
  funcsCursor (setCol s
    (forwardTab s.tek (s.tek.winsize.tpCol - 1 - s.tek.cursor.tpCol) s.tek.cursor.tpCol ntabs))

def cursorNextLine (s : Emu) (ncols : Nat) : Res Emu := cursorDown (setCol s 0) ncols

/-- The row of an absolute position. -/
def absRow (t : Teken) (row : Nat) : Nat :=
  let row := (row - 1) + t.originreg.tsBegin
  if row < t.originreg.tsEnd then row else t.originreg.tsEnd - 1

/-- The column of an absolute position. -/
def absCol (t : Teken) (col : Nat) : Nat :=
  if col - 1 < t.winsize.tpCol then col - 1 else t.winsize.tpCol - 1

def cursorPosition (s : Emu) (row col : Nat) : Res Emu :=
  moveTo s (absRow s.tek row) (absCol s.tek col)

def cursorUp (s : Emu) (nrows : Nat) : Res Emu :=
  moveTo s
    (if s.tek.scrollreg.tsBegin + nrows ≥ s.tek.cursor.tpRow then s.tek.scrollreg.tsBegin
      else s.tek.cursor.tpRow - nrows) s.tek.cursor.tpCol

def cursorPreviousLine (s : Emu) (ncols : Nat) : Res Emu := cursorUp (setCol s 0) ncols

def horizontalPositionAbsolute (s : Emu) (col : Nat) : Res Emu :=
  moveTo s s.tek.cursor.tpRow (absCol s.tek col)

def verticalPositionAbsolute (s : Emu) (row : Nat) : Res Emu :=
  moveTo s (absRow s.tek row) s.tek.cursor.tpCol

def horizontalTab (s : Emu) : Res Emu := cursorForwardTabulation s 1

def index (s : Emu) : Res Emu :=
  if s.tek.cursor.tpRow < s.tek.scrollreg.tsEnd - 1 then
    moveTo s (s.tek.cursor.tpRow + 1) s.tek.cursor.tpCol
  else doScroll s 1

def reverseIndex (s : Emu) : Res Emu :=
  if s.tek.cursor.tpRow > s.tek.scrollreg.tsBegin then
    moveTo s (s.tek.cursor.tpRow - 1) s.tek.cursor.tpCol
  else doScroll s (-1)

def newline (s : Emu) : Res Emu :=
  let row := s.tek.cursor.tpRow + 1
  if row ≥ s.tek.scrollreg.tsEnd then do
    let s ← doScroll (s.upd fun t => { t with cursor := ⟨row, t.cursor.tpCol⟩ }) 1
    moveTo s (s.tek.scrollreg.tsEnd - 1) s.tek.cursor.tpCol
  else moveTo s row s.tek.cursor.tpCol

def nextLine (s : Emu) : Res Emu := newline (setCol s 0)

def newpage (s : Emu) : Res Emu :=
  if s.tek.cons25 then do
    let s ← funcsFill s ⟨⟨s.tek.originreg.tsBegin, 0⟩, ⟨s.tek.originreg.tsEnd, s.tek.winsize.tpCol⟩⟩
      blank
    moveTo s s.tek.originreg.tsBegin 0
  else newline s

def restoreCursor (s : Emu) : Res Emu :=
  funcsCursor (s.upd fun t =>
    let t := { t with cursor := t.savedCursor, wrapped := false }
    let t := if t.curscs then { t with scs1 := t.savedCurscs } else { t with scs0 := t.savedCurscs }
    if t.cursor.tpRow < t.originreg.tsBegin ∨ t.cursor.tpRow ≥ t.originreg.tsEnd then
      { t with origin := false, originreg := ⟨0, t.winsize.tpRow⟩ }
    else t)

def setTopAndBottomMargins (s : Emu) (top bottom : Nat) : Res Emu :=
  let win := s.tek.winsize.tpRow
  let top := if top > 0 then top - 1 else top
  let bottom := if bottom = 0 ∨ bottom > win then win else bottom
  let reg : Span := if top ≥ bottom - 1 then ⟨0, win⟩ else ⟨top, bottom⟩
  let s := s.upd fun t =>
    { t with scrollreg := reg, originreg := if t.origin then reg else t.originreg }
  moveTo s s.tek.originreg.tsBegin 0

/-! ## Changing the screen -/

def alignmentTest (s : Emu) : Res Emu := do
  let s ← funcsCursor (s.upd fun t =>
    { t with
      cursor := ⟨0, 0⟩
      scrollreg := ⟨0, t.winsize.tpRow⟩
      originreg := ⟨0, t.winsize.tpRow⟩
      wrapped := false
      origin := false })
  funcsFill s ⟨⟨0, 0⟩, s.tek.winsize⟩ 69

def deleteCharacter (s : Emu) (ncols : Nat) : Res Emu :=
  let cur := s.tek.cursor
  let w := s.tek.winsize.tpCol
  if cur.tpCol + ncols ≥ w then funcsFill s ⟨cur, ⟨cur.tpRow + 1, w⟩⟩ blank
  else do
    let s ← funcsCopy s ⟨⟨cur.tpRow, cur.tpCol + ncols⟩, ⟨cur.tpRow + 1, w⟩⟩ cur
    funcsFill s ⟨⟨cur.tpRow, w - ncols⟩, ⟨cur.tpRow + 1, w⟩⟩ blank

def insertCharacter (s : Emu) (ncols : Nat) : Res Emu :=
  let cur := s.tek.cursor
  let w := s.tek.winsize.tpCol
  if cur.tpCol + ncols ≥ w then funcsFill s ⟨cur, ⟨cur.tpRow + 1, w⟩⟩ blank
  else do
    let s ← funcsCopy s ⟨cur, ⟨cur.tpRow + 1, w - ncols⟩⟩ ⟨cur.tpRow, cur.tpCol + ncols⟩
    funcsFill s ⟨cur, ⟨cur.tpRow + 1, cur.tpCol + ncols⟩⟩ blank

def deleteLine (s : Emu) (nrows : Nat) : Res Emu :=
  let row := s.tek.cursor.tpRow
  let e := s.tek.scrollreg.tsEnd
  let w := s.tek.winsize.tpCol
  if row < s.tek.scrollreg.tsBegin ∨ row ≥ e then .ok s
  else if row + nrows ≥ e then funcsFill s ⟨⟨row, 0⟩, ⟨e, w⟩⟩ blank
  else do
    let s ← funcsCopy s ⟨⟨row + nrows, 0⟩, ⟨e, w⟩⟩ ⟨row, 0⟩
    funcsFill s ⟨⟨e - nrows, 0⟩, ⟨e, w⟩⟩ blank

def insertLine (s : Emu) (nrows : Nat) : Res Emu :=
  let row := s.tek.cursor.tpRow
  let e := s.tek.scrollreg.tsEnd
  let w := s.tek.winsize.tpCol
  if row < s.tek.scrollreg.tsBegin ∨ row ≥ e then .ok s
  else if row + nrows ≥ e then funcsFill s ⟨⟨row, 0⟩, ⟨e, w⟩⟩ blank
  else do
    let s ← funcsCopy s ⟨⟨row, 0⟩, ⟨e - nrows, w⟩⟩ ⟨row + nrows, 0⟩
    funcsFill s ⟨⟨row, 0⟩, ⟨row + nrows, w⟩⟩ blank

def eraseCharacter (s : Emu) (ncols : Nat) : Res Emu :=
  let cur := s.tek.cursor
  let w := s.tek.winsize.tpCol
  funcsFill s ⟨cur, ⟨cur.tpRow + 1, if cur.tpCol + ncols ≥ w then w else cur.tpCol + ncols⟩⟩ blank

def eraseLine (s : Emu) (mode : Nat) : Res Emu :=
  let row := s.tek.cursor.tpRow
  let w := s.tek.winsize.tpCol
  match mode with
  | 1 => funcsFill s ⟨⟨row, 0⟩, ⟨row + 1, s.tek.cursor.tpCol + 1⟩⟩ blank
  | 2 => funcsFill s ⟨⟨row, 0⟩, ⟨row + 1, w⟩⟩ blank
  | _ => funcsFill s ⟨⟨row, s.tek.cursor.tpCol⟩, ⟨row + 1, w⟩⟩ blank

def eraseDisplay (s : Emu) (mode : Nat) : Res Emu :=
  let row := s.tek.cursor.tpRow
  let w := s.tek.winsize.tpCol
  match mode with
  | 1 => do
    let s ← eraseLine s 1
    if row = 0 then return s else funcsFill s ⟨⟨0, 0⟩, ⟨row, w⟩⟩ blank
  | 2 => funcsFill s ⟨⟨0, 0⟩, ⟨s.tek.winsize.tpRow, w⟩⟩ blank
  | _ => do
    let s ← eraseLine s 0
    if row = s.tek.winsize.tpRow - 1 then return s
    else funcsFill s ⟨⟨row + 1, 0⟩, ⟨s.tek.winsize.tpRow, w⟩⟩ blank

def panDown (s : Emu) (nrows : Nat) : Res Emu := doScroll s nrows

def panUp (s : Emu) (nrows : Nat) : Res Emu := doScroll s (-(nrows : Int))

def resetToInitialState (s : Emu) : Res Emu := do
  let s ← eraseDisplay (s.upd doReset) 2
  funcsCursor s

/-- `teken_subr_repeat_last_graphic_char`, after its bound. -/
def repeatLast : (rpts : Nat) → Emu → Res Emu
  | 0, s => .ok s
  | rpts + 1, s =>
    if s.tek.last ≠ 0 then do
      let s ← regularCharacter s s.tek.last
      repeatLast rpts s
    else .ok s

def repeatLastGraphicChar (s : Emu) (rpts : Nat) : Res Emu :=
  let most := s.tek.winsize.tpRow * s.tek.winsize.tpCol
  -- the product of two `int`s
  if most ≥ 2 ^ 31 then .error .ub
  else repeatLast (if rpts > most then most else rpts) s

/-! ## Modes and reports -/

def resetDecMode (s : Emu) (cmd : Nat) : Res Emu :=
  match cmd with
  | 3 => do
    let s ← funcsParam132 s false
    resetToInitialState s
  | 6 =>
    moveTo (s.upd fun t => { t with origin := false, originreg := ⟨0, t.winsize.tpRow⟩ }) 0 0
  | 7 => .ok (s.upd fun t => { t with autowrap := false })
  | _ => .ok s

def setDecMode (s : Emu) (cmd : Nat) : Res Emu :=
  match cmd with
  | 3 => do
    let s ← funcsParam132 s true
    resetToInitialState s
  | 6 =>
    moveTo (s.upd fun t => { t with origin := true, originreg := t.scrollreg })
      s.tek.scrollreg.tsBegin 0
  | 7 => .ok (s.upd fun t => { t with autowrap := true })
  | _ => .ok s

def setInsertMode (s : Emu) (cmd : Nat) (v : Bool) : Emu :=
  if cmd = 4 then s.upd fun t => { t with insert := v } else s

/-- `teken_subr_do_cpr`: the response behind its introduction. -/
def doCpr (t : Teken) (cmd : Nat) : Option Bytes :=
  match cmd with
  | 5 => some (ascii "0n")
  | 6 =>
    let r := decimal ((t.cursor.tpRow - t.originreg.tsBegin) + 1) ++ ascii ";" ++
      decimal (t.cursor.tpCol + 1) ++ ascii "R"
    if r.length ≥ 16 then none else some r
  | 15 => some (ascii "13n")
  | 25 => some (ascii "20n")
  | 26 => some (ascii "27;1n")
  | _ => none

def respondCpr (s : Emu) (intro : Bytes) (cmd : Nat) : Emu :=
  match doCpr s.tek cmd with
  | none => s
  | some r => funcsRespond s (intro ++ r)

def cursorPositionReport (s : Emu) (cmd : Nat) : Emu := respondCpr s (27 :: ascii "[") cmd

def deviceStatusReport (s : Emu) (cmd : Nat) : Emu := respondCpr s (27 :: ascii "[?") cmd

def primaryDeviceAttributes (s : Emu) (request : Nat) : Emu :=
  if request = 0 then funcsRespond s (27 :: ascii "[?1;2c") else s

def secondaryDeviceAttributes (s : Emu) (request : Nat) : Emu :=
  if request = 0 then funcsRespond s (27 :: ascii "[>0;10;0c") else s

def tabClearCmd (s : Emu) (cmd : Nat) : Emu :=
  match cmd with
  | 0 => s.upd fun t => tabClear t t.cursor.tpCol
  | 3 => s.upd fun t => { t with tabstops := fun _ => false }
  | _ => s

def setTerminalMode (s : Emu) (mode : Nat) : Emu :=
  match mode with
  | 0 => s.upd fun t => { t with cons25 := false }
  | 1 => s.upd fun t => { t with cons25 := true }
  | _ => s

/-! ## Sequences -/

/-- The sequences of `sequences`, by their abbreviations. Those that change nothing of what is
modelled are one. -/
inductive Cmd where
  | cbt | cht | cnl | cpl | cpr | cub | cud | cuf | cup | cuu | da1 | da2 | dc | dcs | decaln
  | decrc | decrm | decsc | decsm | decstbm | dl | dsr | ech | ed | el
  | scs (g1 : Bool) (x : Scs)
  | hpa | hts | ich | il | ind | nel | osc | ri | ris | rm | sd | sm | su | tbc | vpa
  | c25mode | rep | ignored
  deriving DecidableEq, Repr

/-- An argument that is 1 unless it is given and not 0. -/
def argN (t : Teken) (a : Nat) : Nat :=
  if t.curnum < a ∨ t.nums (a - 1) = 0 then 1 else t.nums (a - 1)

/-- An argument that is 0 unless it is given. -/
def argR (t : Teken) (a : Nat) : Nat := if t.curnum < a then 0 else t.nums (a - 1)

def Cmd.exec (s : Emu) : Cmd → Res Emu
  | cbt => cursorBackwardTabulation s (argN s.tek 1)
  | cht => cursorForwardTabulation s (argN s.tek 1)
  | cnl => cursorNextLine s (argN s.tek 1)
  | cpl => cursorPreviousLine s (argN s.tek 1)
  | cpr => .ok (cursorPositionReport s (argR s.tek 1))
  | cub => cursorBackward s (argN s.tek 1)
  | cud => cursorDown s (argN s.tek 1)
  | cuf => cursorForward s (argN s.tek 1)
  | cup => cursorPosition s (argN s.tek 1) (argN s.tek 2)
  | cuu => cursorUp s (argN s.tek 1)
  | da1 => .ok (primaryDeviceAttributes s (argR s.tek 1))
  | da2 => .ok (secondaryDeviceAttributes s (argR s.tek 1))
  | dc => deleteCharacter s (argN s.tek 1)
  | dcs => .ok (s.upd fun t => { t with instring := true })
  | decaln => alignmentTest s
  | decrc => restoreCursor s
  | decrm => resetDecMode s (argR s.tek 1)
  | decsc => .ok (s.upd saveCursor)
  | decsm => setDecMode s (argR s.tek 1)
  | decstbm => setTopAndBottomMargins s (argR s.tek 1) (argR s.tek 2)
  | dl => deleteLine s (argN s.tek 1)
  | dsr => .ok (deviceStatusReport s (argR s.tek 1))
  | ech => eraseCharacter s (argN s.tek 1)
  | ed => eraseDisplay s (argR s.tek 1)
  | el => eraseLine s (argR s.tek 1)
  | scs g1 x => .ok (s.upd fun t => if g1 then { t with scs1 := x } else { t with scs0 := x })
  | hpa => horizontalPositionAbsolute s (argN s.tek 1)
  | hts => .ok (s.upd fun t => tabSet t t.cursor.tpCol)
  | ich => insertCharacter s (argN s.tek 1)
  | il => insertLine s (argN s.tek 1)
  | ind => index s
  | nel => nextLine s
  | osc => .ok (s.upd fun t => { t with instring := true })
  | ri => reverseIndex s
  | ris => resetToInitialState s
  | rm => .ok (setInsertMode s (argR s.tek 1) false)
  | sd => panUp s (argN s.tek 1)
  | sm => .ok (setInsertMode s (argR s.tek 1) true)
  | su => panDown s (argN s.tek 1)
  | tbc => .ok (tabClearCmd s (argR s.tek 1))
  | vpa => verticalPositionAbsolute s (argN s.tek 1)
  | c25mode => .ok (setTerminalMode s (argR s.tek 1))
  | rep => repeatLastGraphicChar s (argN s.tek 1)
  | ignored => .ok s

end Term
end VTest
