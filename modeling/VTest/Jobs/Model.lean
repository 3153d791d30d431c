import VTest.Lib.Run
import VTest.Lib.Text

/-!
# VTest.Jobs.Model

The part of `vtc_main.c` that runs test files: `read_file` puts each file on `tst_head`, the main
loop starts tests while fewer than `npar` are running, and `tst_cb` is called for what their pipes
and timers report.

Tests, jobs and events are objects on a heap. A `struct vtc_tst` is known by its position, and its
place is empty once it is freed; jobs and the registered events are those that are not freed. A
pointer to something freed is not followed: that is undefined. `VEV_Once` calls one callback for one
of the registered events, whichever the environment picks, and returns 0 if there is none.

What a test prints, the directories and the log files are left out, and so is the pause between the
first tests. The counters of results are numbers here; in C they are of type `int`, which is enough
for as many results as a run of the program can live to see.
-/

namespace VTest
namespace Jobs

/-- `struct vtc_tst`. -/
structure Tst where
  filename : Bytes
  script : Bytes
  ntodo : Nat
  nwait : Nat
  deriving DecidableEq, Repr

/-- `struct vtc_job`; `id` stands for its address and `tst` for the pointer to the test. -/
structure Job where
  id : Nat
  tst : Nat
  killed : Bool
  deriving DecidableEq, Repr

/-- The two events of a job: `jp->ev` on its pipe, `jp->evt` for the timeout. -/
inductive EvKind where
  | ev
  | evt
  deriving DecidableEq, Repr

/-- An event that is registered with `vb`. -/
structure Ev where
  kind : EvKind
  job : Nat
  deriving DecidableEq, Repr

/-- What `wait4` reports. -/
inductive Status where
  | exited (code : Nat)
  | signaled (sig : Nat)
  deriving DecidableEq, Repr

/-- The options, and whether `td_trs_file` is set. -/
structure Cfg where
  vtcNtest : Nat
  npar : Int
  vtcContinue : Bool
  tdTrsFile : Bool

/-- The static variables, and the heap. `i` is the variable of `main`. The last two fields are
history: the tests that a child was forked for, and those that a child was waited for. -/
structure St where
  tsts : List (Option Tst) := []
  tstHead : List Nat := []
  jobs : List Job := []
  events : List Ev := []
  nextJob : Nat := 0
  njob : Int := 0
  vtcGood : Nat := 0
  vtcFail : Nat := 0
  vtcSkip : Nat := 0
  i : Int := 0
  forked : List Nat := []
  ended : List Nat := []

/-- The test behind a pointer, unless it has been freed. -/
def St.tst? (s : St) (t : Nat) : Option Tst := (s.tsts[t]?).join

/-- The job behind a pointer, unless it has been freed. -/
def St.job? (s : St) (j : Nat) : Option Job := s.jobs.find? (·.id = j)

/-! ## Reading the files -/

/-- `vct_islws`. -/
def islws (b : UInt8) : Bool := b = 9 || b = 32 || b = 10 || b = 13

/-- `strchr(q, '\n')`, and then one further. -/
def afterLine (q : Bytes) : Option Bytes :=
  match q.dropWhile (· ≠ 10) with
  | [] => none
  | _ :: r => some r

theorem length_afterLine {q r : Bytes} (h : afterLine q = some r) : r.length < q.length := by
  have hle := (List.dropWhile_suffix (l := q) (fun b : UInt8 => b ≠ 10)).length_le
  unfold afterLine at h
  split at h
  · cases h
  · rename_i hd
    cases h
    rw [hd] at hle
    exact hle

/-- The loop of `read_file` over blank lines and comments; `none` is the NULL pointer. -/
def skipComments : Bytes → Option Bytes
  | [] => some []
  | c :: r =>
    if islws c then skipComments r
    else if c ≠ 35 then some (c :: r)
    else
      match _ : afterLine (c :: r) with
      | none => none
      | some r' => skipComments r'
termination_by q => q.length
decreasing_by
  · simp
  · exact length_afterLine (by assumption)

/-- `!strncmp(q, word, strlen(word)) && isspace(q[strlen(word)])`. -/
def startsWith (word q : Bytes) : Bool :=
  word.isPrefixOf q && (q.drop word.length).head?.any isspace

/-- What `read_file` finds out about the content of a file. -/
inductive Verdict where
  | empty
  | other
  | test
  deriving DecidableEq, Repr

def verdict (p : Bytes) : Verdict :=
  match skipComments p with
  | none => .empty
  | some [] => .empty
  | some q =>
    if !startsWith (ascii "varnishtest") q && !startsWith (ascii "vtest") q then .other else .test

/-- `read_file`, with `readfile` for `VFIL_readfile`; the result says whether it returns 0. -/
def readFile (cfg : Cfg) (readfile : Bytes → Option Bytes) (s : St) (fn : Bytes) : Bool × St :=
  match readfile fn with
  | none => (false, s)
  | some p =>
    match verdict p with
    | .empty => (false, s)
    | .other => (false, { s with vtcSkip := s.vtcSkip + 1 })
    | .test =>
      (true,
        { s with
          tsts := s.tsts ++ [some ⟨fn, p, cfg.vtcNtest, cfg.vtcNtest⟩]
          tstHead := s.tstHead ++ [s.tsts.length] })

/-- The loop of `usual_arguments` over the file names. -/
def readFiles (cfg : Cfg) (readfile : Bytes → Option Bytes) : St → List Bytes → Res St
  | s, [] => .ok s
  | s, fn :: argv =>
    let r := readFile cfg readfile s fn
    if !r.1 && !cfg.vtcContinue then .error .fatal
    else readFiles cfg readfile r.2 argv

/-! ## Running the tests -/

/-- `start_test`. -/
def startTest (s : St) : Res St :=
  match s.tstHead with
  | [] => .error .assert
  | t :: rest =>
    match s.tst? t with
    | none => .error .ub
    | some tp => do
      check (tp.ntodo ≠ 0)
      .ok { s with
        tsts := s.tsts.set t (some { tp with ntodo := tp.ntodo - 1 })
        tstHead := if 0 < tp.ntodo - 1 then rest ++ [t] else rest
        jobs := s.jobs ++ [⟨s.nextJob, t, false⟩]
        events := s.events ++ [⟨.ev, s.nextJob⟩, ⟨.evt, s.nextJob⟩]
        nextJob := s.nextJob + 1
        forked := s.forked ++ [t] }

/-- `VEV_Stop`. -/
def vevStop (s : St) (e : Ev) : Res St := do
  check (s.events.contains e)
  .ok { s with events := s.events.erase e }

/-- What `tst_cb` takes for the result of a test: the signal, or the exit status. -/
def ecode : Status → Nat
  | .exited code => code
  | .signaled sig => sig

/-- The counter for a result. -/
def countResult (s : St) (stx : Status) : St :=
  if ecode stx = 0 then { s with vtcGood := s.vtcGood + 1 }
  else if ecode stx = 1 then { s with vtcSkip := s.vtcSkip + 1 }
  else { s with vtcFail := s.vtcFail + 1 }

/-- `jp->tst->nwait--`, and the test is freed with the last of its jobs. -/
def dropWait (s : St) (t : Nat) : Res St :=
  match s.tst? t with
  | none => .error .ub
  | some tp =>
    let tp := { tp with nwait := tp.nwait - 1 }
    .ok { s with tsts := s.tsts.set t (if tp.nwait = 0 then none else some tp) }

/-- `tst_cb` when the pipe is at its end: the job is over. -/
def jobEnded (cfg : Cfg) (s : St) (jp : Job) (stx : Status) : Res St := do
  let s := countResult { s with njob := s.njob - 1, ended := s.ended ++ [jp.tst] } stx
  -- `exit(2)`
  fatalIf (1 < ecode stx && !cfg.vtcContinue && !cfg.tdTrsFile)
  let s ← vevStop s ⟨.evt, jp.id⟩
  let s ← dropWait s jp.tst
  .ok { s with jobs := s.jobs.filter (·.id ≠ jp.id) }

/-- What happens to an event: the timer expires, or the pipe has something, and `read` returns
bytes, an error, or the end, which comes with a status. -/
inductive Report where
  | timeout (j : Nat)
  | output (j : Nat)
  | failed (j : Nat)
  | closed (j : Nat) (stx : Status)
  deriving DecidableEq, Repr

/-- `jp->killed = 1`. -/
def kill (s : St) (j : Nat) : St :=
  { s with jobs := s.jobs.map fun jp => if jp.id = j then { jp with killed := true } else jp }

/-- `VEV_Once`, which calls `tst_cb`. The timer has no file, so `read` fails for it; a callback that
returns 1 has its event stopped. -/
def vevOnce (cfg : Cfg) (s : St) (r : Report) : Res St :=
  match r with
  | .timeout j =>
    if !s.events.contains ⟨.evt, j⟩ then .error .fuel
    else
      match s.job? j with
      | none => .error .ub
      | some _ => .ok (kill s j)
  | .output j | .failed j =>
    if !s.events.contains ⟨.ev, j⟩ then .error .fuel
    else
      match s.job? j with
      | none => .error .ub
      | some _ => .ok s
  | .closed j stx =>
    if !s.events.contains ⟨.ev, j⟩ then .error .fuel
    else
      match s.job? j with
      | none => .error .ub
      | some jp => do
        let s ← jobEnded cfg s jp stx
        vevStop s ⟨.ev, j⟩

/-- A turn of the main loop: a test is started, `VEV_Once` finds no event, or one is reported. -/
inductive Turn where
  | start
  | idle
  | report (r : Report)
  deriving DecidableEq, Repr

/-- `!VTAILQ_EMPTY(&tst_head) || i`. -/
def St.goesOn (s : St) : Bool := !s.tstHead.isEmpty || s.i ≠ 0

/-- The main loop, from one head to the next. A turn that the code does not take here is not
possible. -/
def mainTurn (cfg : Cfg) (s : St) (a : Turn) : Res St :=
  if !s.goesOn then .error .fuel
  else if !s.tstHead.isEmpty && s.njob < cfg.npar then
    match a with
    | .start => do
      let s ← startTest s
      .ok { s with njob := s.njob + 1, i := 1 }
    | .idle => .error .fuel
    | .report _ => .error .fuel
  else
    match a with
    | .start => .error .fuel
    | .idle => if s.events.isEmpty then .ok { s with i := 0 } else .error .fuel
    | .report r => do
      let s ← vevOnce cfg s r
      .ok { s with i := 1 }

end Jobs
end VTest
