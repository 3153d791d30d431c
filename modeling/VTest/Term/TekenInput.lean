import VTest.Term.Teken

/-!
# VTest.Term.TekenInput

How the bytes that a process writes become what the emulation does: UTF-8, control characters, and
the states that `gensequences` makes out of the table in `sequences`.

* `stateNumbers`: the arguments of a sequence.
* `inputChar`: one character, with the assertions behind it.
* `inputByte`, `Emu.input`: one byte, and what one `read` returned.
* `TermEvent`, `TermEvent.step`: what happens to the screen of a process, from `processNew` on.
-/

namespace VTest
namespace Term

/-! ## The table -/

/-- `ESC`. -/
def escape : Nat := 0x1b

/-- The characters that lead to a longer beginning. -/
def State.prefixes : State → List (Char × State)
  | init => [(Char.ofNat escape, esc)]
  | esc => [('[', csi), ('#', hash), ('(', g0), (')', g1)]
  | csi => [('>', csiGreater), ('?', csiQuery), (' ', csiSp), ('=', csiEqual)]
  | _ => []

/-- The characters that end a sequence. -/
def State.cmds : State → List (Char × Cmd)
  | init => []
  | esc =>
    [('P', .dcs), ('=', .ignored), ('>', .ignored), ('8', .decrc), ('7', .decsc), ('H', .hts),
     ('D', .ind), ('E', .nel), (']', .osc), ('M', .ri), ('c', .ris), ('\\', .ignored)]
  | csi =>
    [('Z', .cbt), ('I', .cht), ('E', .cnl), ('F', .cpl), ('n', .cpr), ('D', .cub), ('B', .cud),
     ('e', .cud), ('C', .cuf), ('a', .cuf), ('H', .cup), ('f', .cup), ('A', .cuu), ('c', .da1),
     ('P', .dc), ('u', .decrc), ('s', .decsc), ('r', .decstbm), ('M', .dl), ('X', .ech),
     ('J', .ed), ('K', .el), ('G', .hpa), (Char.ofNat 0x60, .hpa), ('@', .ich), ('L', .il),
     ('l', .rm), ('T', .sd), ('m', .ignored), ('h', .sm), ('S', .su), ('g', .tbc), ('d', .vpa),
     ('x', .ignored), ('z', .ignored), ('b', .rep)]
  | csiSp => [('q', .ignored)]
  | csiQuery => [('l', .decrm), ('h', .decsm), ('n', .dsr)]
  | csiGreater => [('c', .da2)]
  | csiEqual =>
    [('B', .ignored), ('A', .ignored), ('G', .ignored), ('F', .ignored), ('C', .ignored),
     ('S', .ignored), ('T', .c25mode)]
  | hash => [('8', .decaln), ('3', .ignored), ('4', .ignored), ('6', .ignored), ('5', .ignored)]
  | g0 =>
    [('0', .scs false .specialGraphics), ('1', .scs false .usAscii),
     ('2', .scs false .specialGraphics), ('A', .scs false .ukNational), ('B', .scs false .usAscii)]
  | g1 =>
    [('0', .scs true .specialGraphics), ('1', .scs true .usAscii),
     ('2', .scs true .specialGraphics), ('A', .scs true .ukNational), ('B', .scs true .usAscii)]

/-- The state takes arguments. -/
def State.numbers : State → Bool
  | csi | csiSp | csiQuery | csiGreater | csiEqual => true
  | _ => false

/-- The `case` of a character. -/
def select {α : Type} (table : List (Char × α)) (c : Nat) : Option α :=
  (table.find? fun e => e.1.toNat = c).map Prod.snd

/-! ## States -/

def stateSwitch (st : State) (t : Teken) : Teken :=
  { t with nextstate := st, curnum := 0, firstdigit := true }

def setNum (t : Teken) (v : Nat) : Teken := { t with nums := Function.update t.nums t.curnum v }

/-- A digit. Those after the first that would be too many are ignored. -/
def digitArgument (t : Teken) (d : Nat) : Teken :=
  if t.firstdigit then { setNum t d with firstdigit := false }
  else if t.nums t.curnum < 42949672 then setNum t (t.nums t.curnum * 10 + d)
  else t

/-- A semicolon. A sequence with too many arguments is given up. -/
def nextArgument (t : Teken) : Teken :=
  let t := if t.firstdigit then setNum t 0 else t
  let t := { t with curnum := t.curnum + 1 }
  if t.curnum = numSize then stateSwitch .init t else { t with firstdigit := true }

/-- Any other character: the last argument counts as well, also if it is empty. -/
def lastArgument (t : Teken) : Teken :=
  if t.firstdigit ∧ t.curnum > 0 then { setNum t 0 with curnum := t.curnum + 1 }
  else if !t.firstdigit then { t with curnum := t.curnum + 1 }
  else t

/-- `teken_state_numbers`, with what it returns. -/
def stateNumbers (t : Teken) (c : Nat) : Res (Bool × Teken) := do
  check (t.curnum < numSize)
  if 48 ≤ c ∧ c ≤ 57 then return (true, digitArgument t (c - 48))
  else if c = 59 then return (true, nextArgument t)
  else return (false, lastArgument t)

/-- The `switch` of a state, and what is behind it. -/
def stateSelect (st : State) (s : Emu) (c : Nat) : Res Emu :=
  match select st.prefixes c with
  | some st' => .ok (s.upd (stateSwitch st'))
  | none =>
    if st = .init then regularCharacter s c
    else do
      let s ← ((select st.cmds c).getD .ignored).exec s
      return s.upd fun t => stateSwitch .init { t with last := 0 }

/-- `t->t_nextstate(t, c)`. -/
def nextstate (s : Emu) (c : Nat) : Res Emu :=
  let st := s.tek.nextstate
  if st.numbers then do
    let (done, t) ← stateNumbers s.tek c
    if done then return { s with tek := t } else stateSelect st { s with tek := t } c
  else stateSelect st s c

/-! ## Characters and bytes -/

/-- The `switch` of `teken_input_char`. -/
def dispatch (s : Emu) (c : Nat) : Res Emu :=
  match c with
  | 0 => .ok s
  | 7 => .ok s
  | 8 => backspace s
  | 10 => newline s
  | 11 => newline s
  | 12 => newpage s
  | 14 => if s.tek.cons25 then nextstate s c else .ok (s.upd fun t => { t with curscs := true })
  | 15 => if s.tek.cons25 then nextstate s c else .ok (s.upd fun t => { t with curscs := false })
  | 13 => carriageReturn s
  | 9 => horizontalTab s
  | _ => nextstate s c

/-- The assertions behind it. -/
def postInput (s : Emu) : Res Emu := do
  let t := s.tek
  check (t.cursor.tpRow ≥ t.originreg.tsBegin)
  check (t.cursor.tpRow < t.originreg.tsEnd)
  check (t.cursor.tpRow < t.winsize.tpRow)
  check (t.cursor.tpCol < t.winsize.tpCol)
  check (t.savedCursor.tpRow < t.winsize.tpRow)
  check (t.savedCursor.tpCol < t.winsize.tpCol)
  check (t.scrollreg.tsEnd ≤ t.winsize.tpRow)
  check (t.scrollreg.tsBegin < t.scrollreg.tsEnd)
  check ((t.originreg.tsBegin = t.scrollreg.tsBegin ∧ t.originreg.tsEnd = t.scrollreg.tsEnd) ∨
    (t.originreg.tsBegin = 0 ∧ t.originreg.tsEnd = t.winsize.tpRow))
  return s

def inputChar (s : Emu) (c : Nat) : Res Emu :=
  if s.tek.instring ∧ c ≠ escape then
    -- a string is thrown away, up to its end
    if c = 7 then .ok (s.upd fun t => { t with instring := false }) else .ok s
  else do
    let s ← dispatch (s.upd fun t => { t with instring := false }) c
    postInput s

def inputByte (s : Emu) (c : UInt8) : Res Emu :=
  if c &&& 0x80 = 0x00 ∨ s.tek.bit8 then
    inputChar (s.upd fun t => { t with utf8Left := 0 }) c.toNat
  else if c &&& 0xe0 = 0xc0 then
    .ok (s.upd fun t => { t with utf8Left := 1, utf8Partial := (c &&& 0x1f).toNat })
  else if c &&& 0xf0 = 0xe0 then
    .ok (s.upd fun t => { t with utf8Left := 2, utf8Partial := (c &&& 0x0f).toNat })
  else if c &&& 0xf8 = 0xf0 then
    .ok (s.upd fun t => { t with utf8Left := 3, utf8Partial := (c &&& 0x07).toNat })
  else if c &&& 0xc0 = 0x80 then
    if s.tek.utf8Left = 0 then .ok s
    else
      let s := s.upd fun t =>
        { t with
          utf8Left := t.utf8Left - 1
          -- at most three times, so the bits are within a `teken_char_t`
          utf8Partial := (t.utf8Partial <<< 6) ||| (c &&& 0x3f).toNat }
      if s.tek.utf8Left = 0 then inputChar s s.tek.utf8Partial else .ok s
  else .ok s

/-- `teken_input`. -/
def Emu.input (s : Emu) (buf : Bytes) : Res Emu := run inputByte s buf

/-! ## Processes -/

/-- What `ALLOC_OBJ` leaves of the emulation, with the state of `teken_init`. -/
def Teken.zero : Teken where
  nextstate := .init
  firstdigit := false
  insert := false
  autowrap := false
  origin := false
  wrapped := false
  bit8 := false
  cons25 := false
  instring := false
  nums := fun _ => 0
  curnum := 0
  cursor := ⟨0, 0⟩
  savedCursor := ⟨0, 0⟩
  winsize := ⟨0, 0⟩
  scrollreg := ⟨0, 0⟩
  originreg := ⟨0, 0⟩
  tabstops := fun _ => false
  utf8Left := 0
  utf8Partial := 0
  last := 0
  curscs := false
  savedCurscs := .usAscii
  scs0 := .usAscii
  scs1 := .usAscii

def tekenInit : Teken := setWinsize (doReset .zero) ⟨24, 80⟩

def setCursor (s : Emu) (p : Pos) : Res Emu := do
  check (p.tpRow < s.tek.winsize.tpRow)
  check (p.tpCol < s.tek.winsize.tpCol)
  return s.upd fun t => { t with cursor := p }

/-- `process_new`. The cursor is left where `process_coverage` has put it. -/
def processNew : Res Emu := do
  let s ← Emu.resize { tek := tekenInit, pp := {}, responses := [] } 24 80
  setCursor s ⟨0, 8⟩

/-- What happens to a process: it writes to its terminal, or `-winsz` is given. -/
inductive TermEvent where
  | output (buf : Bytes)
  | winsz (lin col : Nat)
  deriving DecidableEq, Repr

def TermEvent.step (s : Emu) : TermEvent → Res Emu
  | output buf => s.input buf
  | winsz lin col => do
    check (lin > 1)
    check (col > 1)
    s.resize lin col

/-- What a process shows after these events. -/
def processRun (evs : List TermEvent) : Res Emu := do
  let s ← processNew
  run TermEvent.step s evs

end Term
end VTest
