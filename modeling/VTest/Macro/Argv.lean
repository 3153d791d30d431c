import VTest.Script.Quote

/-!
# VTest.Macro.Argv

`VAV_ParseTxt` of `vav.c`, which cuts a text into arguments. A pointer into the text is an offset,
and `e` is its length; `sep` is the last separator.
-/

namespace VTest
namespace Macro

open Script

/-- The bits of `flag`. -/
structure Flags where
  comment : Bool := false
  comma : Bool := false
  noesc : Bool := false
  deriving DecidableEq, Repr

/-- What `argv[0]` is set to. -/
inductive VavErr where
  | invalidBackslash
  | invalidQuote
  | missingQuote
  | missingSeparator
  deriving DecidableEq, Repr

def VavErr.text : VavErr → Bytes
  | .invalidBackslash => ascii "Invalid backslash sequence"
  | .invalidQuote => ascii "Invalid '\"'"
  | .missingQuote => ascii "Missing '\"'"
  | .missingSeparator => ascii "Missing separator between arguments"

/-- The loop of `VAV_BackSlashDecode`. -/
def backSlashDecode : Nat → Bytes → Option Bytes
  | _, [] => some []
  | 0, _ => none
  | fuel + 1, c :: t =>
    if c = 92 then
      match accepted (c :: t) with
      | none => none
      | some (n, b) => (backSlashDecode fuel ((c :: t).drop n)).map (b :: ·)
    else (backSlashDecode fuel t).map (c :: ·)

/-- The loop over an argument: how long it is, and whether a separator ends it. -/
def argEnd (flag : Flags) (quote : Bool) : Nat → Bytes → Except VavErr (Nat × Bool)
  | _, [] => .ok (0, false)
  | 0, _ => .ok (0, false)
  | fuel + 1, c :: t =>
    if c = 92 ∧ !flag.noesc then
      match accepted (c :: t) with
      | none => .error .invalidBackslash
      | some (n, _) => (argEnd flag quote fuel ((c :: t).drop n)).map fun (k, sep) => (k + n, sep)
    else if !quote ∧ (isspace c ∨ flag.comma ∧ c = 44) then .ok (0, true)
    else if !quote ∧ !flag.noesc ∧ c = 34 then .error .invalidQuote
    else if quote ∧ c = 34 then .ok (0, true)
    else (argEnd flag quote fuel t).map fun (k, sep) => (k + 1, sep)

/-- An argument without its escapes, `argv[nargv]`. -/
def argText (flag : Flags) (t : Bytes) : Res Bytes :=
  if flag.noesc then .ok t
  else
    match backSlashDecode t.length t with
    | none => .error .assert
    | some a => .ok a

/-- The main loop, at `b`, with the arguments so far. -/
def parseArgs (flag : Flags) (t : Bytes) :
    Nat → Nat → Option Nat → List Bytes → Res (Except VavErr (List Bytes))
  | 0, _, _, _ => .error .fuel
  | fuel + 1, b, sep, args =>
    if b < t.length then
      let c := t.getD b 0
      let sepChar := sep.map (t.getD · 0)
      if isspace c then parseArgs flag t fuel (b + 1) sep args
      else if flag.comma ∧ c = 44 ∧ (sepChar.any isspace ∨ sepChar = some 34) then
        parseArgs flag t fuel (b + 1) none args
      else if sepChar = some 34 ∧ c = 34 ∧ b - sep.getD 0 < 2 then
        .ok (.error .missingSeparator)
      else if flag.comment ∧ c = 35 then .ok (.ok args)
      else
        let quote := c = 34 && !flag.noesc
        let p := if quote then b + 1 else b
        match argEnd flag quote t.length (t.drop p) with
        | .error e => .ok (.error e)
        | .ok (n, found) =>
          if quote ∧ !found then .ok (.error .missingQuote)
          else do
            let arg ← argText flag ((t.drop p).take n)
            parseArgs flag t fuel (if p + n < t.length then p + n + 1 else p + n)
              (if found then some (p + n) else none) (args ++ [arg])
    else .ok (.ok (if sep.map (t.getD · 0) = some 44 then args ++ [[]] else args))

/-- `VAV_ParseTxt`: the arguments from `argv[1]` on. -/
def vavParseTxt (flag : Flags) (t : Bytes) : Res (Except VavErr (List Bytes)) :=
  parseArgs flag t (t.length + 1) 0 none []

end Macro
end VTest
