import VTest.Lib.Run

/-!
# VTest.Logexpect.Model

`logexpect` (`vtc_logexp.c`): a list of tests, and a cursor on it that the records of a log move.

A test is an `expect` (which may let some records pass, `skip_max`), an entry of the fail list, or
a command that empties the fail list. The tests marked `?` in a row are alternatives: the records
may come in any order, and `logexp_match` marks in the list which of them were seen.

Regular expressions are a parameter: `vreMatch v d` says that `VRE_match` finds `v` in `d`.
The log lines, and `m_arg` which only adds some, are left out.
-/

namespace VTest
namespace Logexpect

/-- The tags `logexp_dispatch` and `logexp_match` know, and all others. -/
inductive Tag where
  | batch
  | witness
  | end_
  | other (n : Nat)
  deriving DecidableEq, Repr

/-- `skip_max`: a number, or one of the values `LE_ANY`, `LE_ALT` ... `LE_ABORT`. -/
inductive Skip where
  | num (n : Nat)
  | any
  | alt
  | seen
  | fail
  | clear
  | abort
  deriving DecidableEq, Repr

/-- What a test wants of a vxid or a tag: `*`, `=`, or a value. -/
inductive Want (α : Type) where
  | any
  | last
  | is (a : α)
  deriving DecidableEq, Repr

/-- A log record, and whether the cursor's own filter (`VSL_Match`) lets it through. -/
structure Record where
  vxid : Nat
  tag : Tag
  data : Bytes
  listed : Bool := true
  deriving DecidableEq, Repr

/-- `vxid_last` and `tag_last`; `none` is the -1 they start with. -/
structure Last where
  vxid : Option Nat := none
  tag : Option Tag := none
  deriving DecidableEq, Repr

def Record.last (r : Record) : Last := ⟨some r.vxid, some r.tag⟩

/-- `struct logexp_test`. -/
structure Test (Vre : Type) where
  skipMax : Skip
  vxid : Want Nat := .any
  tag : Want Tag := .any
  vre : Option Vre := none
  deriving DecidableEq, Repr

/-- `struct logexp`: `test` and `fail` point into `tests`. -/
structure Logexp (Vre : Type) where
  tests : List (Test Vre)
  test : Option Nat := none
  skipCnt : Nat := 0
  last : Last := {}
  fail : List Nat := []
  deriving DecidableEq, Repr

inductive LeMatch where
  | ok
  | skip
  | fail
  deriving DecidableEq, Repr

variable {Vre : Type}

/-! ## The cursor -/

def logexpClean (tests : List (Test Vre)) : List (Test Vre) :=
  tests.map fun t => if t.skipMax = .seen then { t with skipMax := .alt } else t

def logexpDone (le : Logexp Vre) : Bool := le.fail.isEmpty && le.test.isNone

/-- The `switch` of `logexp_next` with the cursor on the first test of the list, number `i`, and
the calls of `logexp_next` at its end, which only move the cursor on. -/
def logexpWalk (le : Logexp Vre) : Nat → List (Test Vre) → Res (Logexp Vre)
  | _, [] => .ok { le with test := none }
  | i, t :: rest =>
    match t.skipMax with
    | .seen => logexpWalk le (i + 1) rest
    | .clear => logexpWalk { le with fail := [] } (i + 1) rest
    | .fail => logexpWalk { le with fail := le.fail ++ [i] } (i + 1) rest
    | .abort => .error .assert
    | _ => .ok { le with test := some i }

/-- The test the cursor is on is an alternative that was not seen. -/
def onAlt (le : Logexp Vre) (i : Nat) : Bool := (le.tests[i]?.map (·.skipMax)) == some .alt

def logexpNext (le : Logexp Vre) : Res (Logexp Vre) :=
  match le.test with
  | some i =>
    if onAlt le i then logexpWalk le i (le.tests.drop i)
    else logexpWalk le (i + 1) (le.tests.drop (i + 1))
  | none =>
    let tests := logexpClean le.tests
    logexpWalk { le with tests := tests, fail := [] } 0 tests

/-! ## Matching -/

/-- The value is wanted, where `last` is the value of the last record that matched. -/
def Want.admits {α : Type} [DecidableEq α] (last : Option α) (v : α) : Want α → Bool
  | .any => true
  | .last => last == some v
  | .is a => a == v

section

variable (vreMatch : Vre → Bytes → Bool)

/-- The regular expression is looked at where the test names the record's tag. -/
def Test.vreMiss (t : Test Vre) (r : Record) : Bool :=
  match t.vre, t.tag with
  | some v, .is g => g == r.tag && !vreMatch v r.data
  | _, _ => false

/-- `ok` of `logexp_match`. -/
def Test.ok (t : Test Vre) (last : Last) (r : Record) : Bool :=
  t.vxid.admits last.vxid r.vxid && t.tag.admits last.tag r.tag && !t.vreMiss vreMatch r

/-- `vxid_ok` of `logexp_match`: the test names a vxid, and it is the record's. -/
def Test.vxidOk (t : Test Vre) (last : Last) (r : Record) : Bool :=
  match t.vxid with
  | .any => false
  | w => w.admits last.vxid r.vxid

/-- `skip` of `logexp_match` for a record that is not `ok`, after `cnt` skipped records. -/
def Test.skips (t : Test Vre) (last : Last) (cnt : Nat) (r : Record) : Bool :=
  let skip :=
    match t.skipMax with
    | .any => true
    | .num n => decide (cnt < n)
    | _ => false
  -- the end of the transaction that is waited for is not skipped
  skip && !(t.vxidOk last r && r.tag == .end_)

def Logexp.mark (le : Logexp Vre) (i : Nat) : Logexp Vre :=
  { le with tests := le.tests.modify i fun t => { t with skipMax := .seen } }

/-- `logexp_alt` from the test before number `i`, and `logexp_match` on what it finds. -/
def logexpAlt (le : Logexp Vre) (r : Record) : Nat → List (Test Vre) → LeMatch × Logexp Vre
  | _, [] => (.fail, le)
  | i, t :: rest =>
    match t.skipMax with
    | .seen => logexpAlt le r (i + 1) rest
    | .alt => if t.ok vreMatch le.last r then (.ok, le.mark i) else logexpAlt le r (i + 1) rest
    | _ => (.fail, le)

/-- `logexp_match` on test `t`, number `i`, with `rest` after it. -/
def matchTest (le : Logexp Vre) (r : Record) (i : Nat) (t : Test Vre) (rest : List (Test Vre)) :
    LeMatch × Logexp Vre :=
  if t.ok vreMatch le.last r then (.ok, if t.skipMax = .alt then le.mark i else le)
  else if t.skipMax = .alt then logexpAlt vreMatch le r (i + 1) rest
  else if t.skips le.last le.skipCnt r then (.skip, le)
  else (.fail, le)

def logexpMatch (le : Logexp Vre) (r : Record) (i : Nat) : Res (LeMatch × Logexp Vre) :=
  match le.tests.drop i with
  | [] => .error .ub
  | t :: rest => do
    check (t.skipMax ≠ .seen && t.skipMax ≠ .clear)
    .ok (matchTest vreMatch le r i t rest)

/-- The loop of `logexp_failchk`. -/
def failLoop (le : Logexp Vre) (r : Record) : List Nat → Res LeMatch
  | [] => .ok .ok
  | f :: fs => do
    let m ← logexpMatch vreMatch le r f
    match m.1 with
    | .ok => .ok .fail
    | .fail => failLoop le r fs
    | .skip => .error .assert

def logexpFailchk (le : Logexp Vre) (r : Record) : Res LeMatch :=
  if le.fail.isEmpty then .ok .skip else failLoop vreMatch le r le.fail

/-! ## Dispatching -/

/-- `skip_cnt++` on an `int`. -/
def skipOne (le : Logexp Vre) : Res (Logexp Vre) :=
  if le.skipCnt < 2 ^ 31 - 1 then .ok { le with skipCnt := le.skipCnt + 1 } else .error .ub

/-- What `logexp_dispatch` does with a record that no fail specification matches. -/
def matchRecord (le : Logexp Vre) (r : Record) (i : Nat) : Res (Int × Logexp Vre) := do
  let m ← logexpMatch vreMatch le r i
  match m.1 with
  | .fail => .ok (2, m.2)
  | .skip => do
    let le ← skipOne m.2
    .ok (0, le)
  | .ok => do
    let le ← logexpNext { m.2 with last := r.last, skipCnt := 0 }
    .ok (if logexpDone le then 1 else 0, le)

/-- The body of the inner loop of `logexp_dispatch`; anything but 0 is returned at once. -/
def dispatchRecord (le : Logexp Vre) (r : Record) : Res (Int × Logexp Vre) := do
  let m ← logexpFailchk vreMatch le r
  match m, le.test with
  | .fail, _ => .ok (2, le)
  | m, none => do
    check (m = .ok)
    .ok (0, le)
  | _, some i => matchRecord vreMatch le r i

/-- The records that `logexp_dispatch` looks at. -/
def Record.shown (r : Record) : Bool := r.listed && r.tag ≠ .batch && r.tag ≠ .witness

def dispatchLoop (le : Logexp Vre) : List Record → Res (Int × Logexp Vre)
  | [] => .ok (0, le)
  | r :: rs =>
    if r.shown then do
      let d ← dispatchRecord vreMatch le r
      if d.1 = 0 then dispatchLoop d.2 rs else .ok d
    else dispatchLoop le rs

/-- `logexp_dispatch` on the records of the transactions `pt`. -/
def logexpDispatch (le : Logexp Vre) (pt : List (List Record)) : Res (Int × Logexp Vre) :=
  dispatchLoop vreMatch le pt.flatten

/-- One turn of the loop of `logexp_thread`, as the rest of the world makes it: whether `vtc_stop`
or `vtc_error` is set, what `VSLQ_Dispatch` gives to `logexp_dispatch` call by call, and what it
returns if none of these calls stops it. -/
structure Poll where
  stop : Bool := false
  calls : List (List (List Record))
  status : Int := 0
  deriving Repr

def vslqDispatch (le : Logexp Vre) (status : Int) :
    List (List (List Record)) → Res (Int × Logexp Vre)
  | [] => .ok (status, le)
  | pt :: calls => do
    let d ← logexpDispatch vreMatch le pt
    if d.1 = 0 then vslqDispatch d.2 status calls else .ok d

/-- The loop of `logexp_thread`. Where the polls end before it does, it is still waiting. -/
def threadLoop (errArg : Bool) (le : Logexp Vre) : List Poll → Res (Logexp Vre)
  | [] => if logexpDone le then .ok le else .error .fuel
  | p :: ps =>
    if logexpDone le then .ok le
    else if p.stop then .error .fatal
    else do
      let d ← vslqDispatch vreMatch le p.status p.calls
      if d.1 = 2 ∧ errArg then .ok d.2
      else if d.1 = 2 ∨ d.1 < 0 then .error .fatal
      else threadLoop errArg d.2 ps

def logexpThread (errArg : Bool) (le : Logexp Vre) (polls : List Poll) : Res (Logexp Vre) := do
  check le.test.isNone
  let le ← logexpNext le
  threadLoop vreMatch errArg le polls

/-- What `logexp_start` sets before it starts the thread. -/
def logexpStart (le : Logexp Vre) : Logexp Vre := { le with test := none, skipCnt := 0, last := {} }

/-- `logexp_start` and the thread. -/
def logexpRun (errArg : Bool) (le : Logexp Vre) (polls : List Poll) : Res (Logexp Vre) :=
  logexpThread vreMatch errArg (logexpStart le) polls

end

/-- The records given to `logexp_dispatch` in a run. -/
def given (polls : List Poll) : List Record :=
  (polls.flatMap fun p => p.calls.flatMap List.flatten).filter Record.shown

end Logexpect
end VTest
