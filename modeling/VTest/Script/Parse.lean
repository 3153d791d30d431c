import VTest.Lib.Text

/-!
# VTest.Script.Parse

`parse_string` of `vtc.c`: it copies the spec, collects the tokens of one command line after the
other in place, ends each of them with a NUL, and calls the command.

The copy is a memory `m` whose last byte, at offset `e`, is the NUL; pointers are offsets. What the
commands, the macros and the rest of the program do is an `Env` over a state `S`. A run that traps
keeps the state in which it did. Log entries are left out, except that a fatal one ends the run.
-/

namespace VTest
namespace Script

def maxTokens : Nat := 200

/-! ## Escapes -/

/-- The loop over the octal digits in `vav_backslash_txt`. -/
def octal : Nat → Nat → UInt8 → Bytes → Nat × UInt8
  | n + 1, r, c, b :: t =>
    if 48 ≤ b && b ≤ 55 then octal n (r + 1) (c <<< 3 ||| (b - 48)) t else (r, c)
  | _, r, c, _ => (r, c)

/-- `vav_backslash_txt` on a text of two bytes or more, of which the first is the backslash: the
length of the escape, 0 if there is none, and the byte it stands for. -/
def escape : Bytes → Nat × UInt8
  | _ :: 110 :: _ => (2, 10)
  | _ :: 114 :: _ => (2, 13)
  | _ :: 116 :: _ => (2, 9)
  | _ :: 34 :: _ => (2, 34)
  | _ :: 92 :: _ => (2, 92)
  | _ :: 120 :: h :: l :: _ =>
    match digitIn 16 h, digitIn 16 l with
    | some a, some b => (4, UInt8.ofNat (a * 16 + b))
    | _, _ => (0, 0)
  | _ :: d :: t => if 48 ≤ d && d ≤ 55 then octal 3 1 0 (d :: t) else (0, 0)
  | _ => (0, 0)

/-- `VAV_BackSlash(p, q)`: what it returns, and the memory it leaves. -/
def vavBackSlash (m : Bytes) (p q : Nat) : Nat × Bytes :=
  let s := cstr m p
  if s.length < 2 then (0, m) else ((escape s).1, m.set q (escape s).2)

/-! ## Tokens -/

/-- The loop over a quoted token: the memory, `p` and `q` behind it. -/
def quoteLoop (e : Nat) : Nat → Bytes → Nat → Nat → Res (Bytes × Nat × Nat)
  | 0, _, _, _ => .error .fuel
  | fuel + 1, m, p, q =>
    match m[p]? with
    | none => .error .ub
    | some c =>
      if c = 0 then .ok (m, p, q)
      else do
        check (p < e)
        if c = 34 then return (m, p, q)
        else if c = 92 then
          -- `p += n - 1` here, and `p++` in the loop
          let (n, m) := vavBackSlash m p q
          quoteLoop e fuel m (p + n) (q + 1)
        else do
          fatalIf (c = 10)
          quoteLoop e fuel (m.set q c) (p + 1) (q + 1)

/-- The loop over a token in braces: how far the brace that closes it is, or the end. -/
def braceEnd : Int → Bytes → Nat
  | _, [] => 0
  | n, b :: t =>
    if b = 123 then 1 + braceEnd (n + 1) t
    else if b = 125 then if n - 1 = 0 then 0 else 1 + braceEnd (n - 1) t
    else 1 + braceEnd n t

/-- The variables of the token loop. `toks` is `token_s` and `token_e` up to `tn`. -/
structure Line where
  m : Bytes
  p : Nat
  toks : List (Nat × Nat) := []

/-- Enough turns for a quoted token that comes to an end. -/
def quoteFuel (e : Nat) : Nat := 2 * e + 4

/-- A turn of the token loop; `none` at the end of the line. -/
def tokStep (e : Nat) (l : Line) : Res (Option Line) := do
  check (l.toks.length < maxTokens)
  let c := l.m.getD l.p 0
  if c = 10 then return none
  else if isspace c then return some { l with p := l.p + 1 }
  else if c = 92 ∧ l.m.getD (l.p + 1) 0 = 10 then return some { l with p := l.p + 2 }
  else if c = 34 then do
    let (m, p, q) ← quoteLoop e (quoteFuel e) l.m (l.p + 1) (l.p + 1)
    return some { m := m, p := p + 1, toks := l.toks ++ [(l.p + 1, q)] }
  else if c = 123 then do
    let p := l.p + braceEnd 0 ((l.m.take e).drop l.p)
    check (l.m.getD p 0 = 125)
    return some { l with p := p + 1, toks := l.toks ++ [(l.p + 1, p)] }
  else
    let p := l.p + (((l.m.take e).drop l.p).takeWhile (!isspace ·)).length
    return some { l with p := p, toks := l.toks ++ [(l.p, p)] }

/-- The token loop. Every turn moves `p`, so the fuel is that of the bytes in front of `e`. -/
def collect (e : Nat) : Nat → Line → Res Line
  | 0, _ => .error .fuel
  | fuel + 1, l =>
    if l.p < e then do
      match ← tokStep e l with
      | none => return l
      | some l => collect e fuel l
    else .ok l

/-- The tokens of a line, and the assertions behind the loop. -/
def tokenize (e : Nat) (l : Line) : Res Line := do
  let l ← collect e (e + 1) l
  check (l.p ≤ e)
  check (l.toks.length < maxTokens)
  return l

/-! ## Commands -/

abbrev Run (S α : Type) := Except (Trap × S) α

@[simp] theorem run_bind {S α β : Type} (a : α) (f : α → Run S β) :
    ((Except.ok a : Run S α) >>= f) = f a := rfl

theorem run_bind_eq_ok {S α β : Type} {x : Run S α} {f : α → Run S β} {b : β} :
    x >>= f = .ok b ↔ ∃ a, x = .ok a ∧ f a = .ok b := by
  cases x with
  | error e =>
    constructor
    · intro h
      cases h
    · rintro ⟨_, h, _⟩
      cases h
  | ok a => simp

abbrev Cmd (S : Type) := S → List Bytes → Run S S

/-- What is around the parser: `vtc_error || vtc_stop`, `vtc_error`, `macro_expand`, the commands in
`vl->cmds` if there are any, and `find_cmd` with the flag `CMDS_F_GLOBAL`. -/
structure Env (S : Type) where
  halted : S → Bool
  failed : S → Bool
  macroExpand : S → Bytes → Run S (Bytes × S)
  cmds : Option (List (Bytes × Cmd S))
  findCmd : Bytes → Option (Cmd S × Bool)

variable {S : Type}

/-- A step that does not look at the state. -/
def lift {α : Type} (s : S) : Res α → Run S α
  | .ok a => .ok a
  | .error t => .error (t, s)

theorem lift_eq_ok {α : Type} {s : S} {x : Res α} {a : α} : lift s x = .ok a ↔ x = .ok a := by
  cases x <;> simp [lift]

/-- `strstr(s, "$\x7b")`. -/
def hasMacro : Bytes → Bool
  | 36 :: 123 :: _ => true
  | _ :: t => hasMacro t
  | [] => false

/-- `token_s[tn]` when the command is called: a place in the memory, or the text of a macro. -/
inductive Arg where
  | place (s : Nat)
  | text (t : Bytes)

def Arg.read (m : Bytes) : Arg → Bytes
  | .place s => cstr m s
  | .text t => t

/-- The loop that ends the tokens and expands macros; no arguments if it is left by `return`. -/
def endTokens (env : Env S) : List (Nat × Nat) → Bytes → S → Run S (Bytes × Option (List Arg) × S)
  | [], m, s => .ok (m, some [], s)
  | (a, b) :: toks, m, s =>
    let m := m.set b 0
    if hasMacro (cstr m a) then do
      let (t, s) ← env.macroExpand s (cstr m a)
      if env.failed s then return (m, none, s)
      else do
        let (m, args, s) ← endTokens env toks m s
        return (m, args.map (.text t :: ·), s)
    else do
      let (m, args, s) ← endTokens env toks m s
      return (m, args.map (.place a :: ·), s)

def Env.lookup (env : Env S) (name : Bytes) : Option (Cmd S) :=
  match env.cmds with
  | none => (env.findCmd name).map (·.1)
  | some l =>
    match l.find? (·.1 = name) with
    | some c => some c.2
    | none =>
      match env.findCmd name with
      | some (c, true) => some c
      | _ => none

/-- The loop of the command `loop`. -/
def loopCmd (env : Env S) (nested : Bytes → S → Run S S) (spec : Option Bytes) :
    Nat → S → Run S S
  | 0, s => .ok s
  | n + 1, s =>
    if env.halted s then .ok s
    else
      match spec with
      | none => .error (.assert, s)
      | some spec => do
        let s ← nested spec s
        loopCmd env nested (some spec) n s

/-- The line with these arguments is executed. -/
def execute (env : Env S) (nested : Bytes → S → Run S S) (args : List Bytes) (s : S) : Run S S :=
  match args with
  | [] => .error (.ub, s)
  | name :: rest =>
    if name = ascii "loop" then
      match rest with
      | [] => .error (.ub, s)
      | n :: rest => loopCmd env nested rest.head? ((strtoul 0 n).1 % 2 ^ 32) s
    else
      match env.lookup name with
      | none => .error (.fatal, s)
      | some c => c s args

/-- How a turn of the outer loop ends: the loop is left, or goes on at `p`. -/
inductive Turn (S : Type) where
  | leave (s : S)
  | next (m : Bytes) (p : Nat) (s : S)

/-- A turn of the outer loop, with `p++` at its end. -/
def parseTurn (env : Env S) (nested : Bytes → S → Run S S) (e : Nat) (m : Bytes) (p : Nat) (s : S) :
    Run S (Turn S) :=
  if env.halted s then .ok (.leave s)
  else
    let c := m.getD p 0
    if isspace c then .ok (.next m (p + 1) s)
    else if c = 10 then .ok (.next m (p + 1) s)
    else if c = 35 then
      let p := p + ((m.drop p).takeWhile fun b => b ≠ 0 && b ≠ 10).length
      .ok (if m.getD p 0 = 0 then .leave s else .next m (p + 1) s)
    else do
      let l ← lift s (tokenize e { m := m, p := p })
      let (m, args, s) ← endTokens env l.toks l.m s
      match args with
      | none => return .leave s
      | some args => do
        let s ← execute env nested (args.map (Arg.read m)) s
        return .next m (l.p + 1) s

/-- The outer loop. Every turn moves `p`, so the fuel is that of the bytes in front of `e`. -/
def parseLoop (env : Env S) (nested : Bytes → S → Run S S) (e : Nat) :
    Nat → Bytes → Nat → S → Run S S
  | 0, _, _, s => .error (.fuel, s)
  | fuel + 1, m, p, s =>
    if p < e then do
      match ← parseTurn env nested e m p s with
      | .leave s => return s
      | .next m p s => parseLoop env nested e fuel m p s
    else .ok s

/-- `parse_string`, with so many levels of `loop` inside each other. -/
def parseString (env : Env S) : Nat → Bytes → S → Run S S
  | 0, _, s => .error (.fuel, s)
  | depth + 1, spec, s =>
    parseLoop env (parseString env depth) spec.length (spec.length + 1) (spec ++ [0]) 0 s

end Script
end VTest
