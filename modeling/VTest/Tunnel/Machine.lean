import VTest.Lib.Run

/-!
# VTest.Tunnel.Machine

A tunnel (`vtc_tunnel.c`) between its start and its end, as two threads see it. The spec thread
accepts the connection and runs the commands `pause`, `send`, `recv` and `resume`. The poll thread
moves bytes from one socket to the other, in two lanes: it reads both, looks at the state, and
writes both.

Each part of a thread between two calls that take the lock or give it away is one step, and so is
each call of `poll`, `read` and `write`, none of which fails. The threads take their steps in any
order. An action that cannot be taken is no step, and neither is a failed assertion: its thread ends
with the lock in its hands. `vtc_fatal` ends the spec thread alone.

Both threads wait for the same condition variable, so a signal that one of them sends can only wake
the other one. The main thread sends one too, in `tunnel_wait`.
-/

namespace VTest
namespace Tunnels

/-! ## State -/

/-- `enum tunnel_state_e`. -/
inductive State where
  | accept
  | running
  | paused
  | specDone
  | pollDone
  | stopped
  deriving DecidableEq, Repr

/-- `send_lane` and `recv_lane`. -/
inductive Dir where
  | send
  | recv
  deriving DecidableEq, Repr

/-- `struct tunnel_lane`. The last two fields are history: what was read from the one socket and
written to the other. -/
structure Lane where
  buf : Bytes := List.replicate 1024 0
  bufLen : Int := 0
  wrkLen : Nat := 0
  read : Bytes := []
  written : Bytes := []

/-- The commands; `transfer` is `send` or `recv`, by the lane. -/
inductive Cmd where
  | pause
  | transfer (d : Dir) (len : Nat)
  | resume
  deriving DecidableEq, Repr

/-- Where the spec thread is: at its start, in `tunnel_accept`, between two commands, in a command
between `tunnel_is_open` and the lock, in the wait of a command, or at its end. -/
inductive SpecPc where
  | started
  | accepting
  | ready
  | checked (c : Cmd)
  | waiting (c : Cmd) (woken : Bool)
  | ended
  deriving DecidableEq, Repr

/-- Where the poll thread is. `fetch d len` is in front of the `read` of a lane, `store d res`
behind it, and `write d p l` in the loop of `tunnel_write`. -/
inductive PollPc where
  | head
  | choose
  | acceptWait (woken : Bool)
  | sampled (s : State)
  | polling
  | enter (d : Dir)
  | fetch (d : Dir) (len : Nat)
  | store (d : Dir) (res : Nat)
  | test
  | testWait (woken : Bool)
  | resumed
  | write (d : Dir) (p : Nat) (l : Int)
  | ending
  | endWait (woken : Bool)
  | closing
  | done
  deriving DecidableEq, Repr

/-- A tunnel. `ready` is what `poll` has found. `mark` is history: how much was written in each lane
when the last command started. -/
structure Tunnel where
  state : State := .accept
  startPaused : Bool := false
  vtcStop : Bool := false
  lane : Dir → Lane := fun _ => {}
  ready : Dir → Bool := fun _ => false
  spec : SpecPc := .started
  poll : PollPc := .head
  mark : Dir → Nat := fun _ => 0

inductive Thread where
  | spec
  | poll
  deriving DecidableEq, Repr

/-- `pthread_cond_signal`, for the spec thread. -/
def SpecPc.signal : SpecPc → SpecPc
  | .waiting c _ => .waiting c true
  | pc => pc

/-- `pthread_cond_signal`, for the poll thread. -/
def PollPc.signal : PollPc → PollPc
  | .acceptWait _ => .acceptWait true
  | .testWait _ => .testWait true
  | .endWait _ => .endWait true
  | pc => pc

/-- The spec thread is in `pthread_cond_wait`. -/
def SpecPc.blocked : SpecPc → Bool
  | .waiting _ woken => !woken
  | _ => false

/-- The poll thread is in `pthread_cond_wait`. -/
def PollPc.blocked : PollPc → Bool
  | .acceptWait woken | .testWait woken | .endWait woken => !woken
  | _ => false

def Tunnel.blocked (t : Tunnel) : Thread → Bool
  | .spec => t.spec.blocked
  | .poll => t.poll.blocked

def Tunnel.wake (t : Tunnel) : Thread → Tunnel
  | .spec => { t with spec := t.spec.signal }
  | .poll => { t with poll := t.poll.signal }

def Tunnel.goto (t : Tunnel) (pc : PollPc) : Tunnel := { t with poll := pc }

def Tunnel.setLane (t : Tunnel) (d : Dir) (l : Lane) : Tunnel :=
  { t with lane := Function.update t.lane d l }

def Tunnel.tunnelIsOpen (t : Tunnel) : Bool :=
  0 ≤ (t.lane .send).bufLen && 0 ≤ (t.lane .recv).bufLen

/-! ## The spec thread -/

/-- The last part of `tunnel_accept`. -/
def Tunnel.accept (t : Tunnel) : Tunnel :=
  { t with
    lane := fun d => { t.lane d with bufLen := 0, wrkLen := 0 }
    state := if t.startPaused then .paused else .running
    startPaused := false
    poll := t.poll.signal
    spec := .ready }

/-- `vtc_fatal`. -/
def Tunnel.specFatal (t : Tunnel) : Tunnel := { t with spec := .ended }

/-- The end of a command's section: it signals and waits. -/
def Tunnel.await (t : Tunnel) (c : Cmd) : Tunnel :=
  { t with poll := t.poll.signal, spec := .waiting c false }

def Tunnel.setState (t : Tunnel) (s : State) : Tunnel := { t with state := s }

def cmdTunnelPause (t : Tunnel) : Res Tunnel :=
  if t.state = .paused then .ok t.specFatal
  else do
    check (t.state = .running)
    .ok ((t.setState .paused).await .pause)

def cmdTunnelSend (t : Tunnel) (d : Dir) (len : Nat) : Res Tunnel :=
  if t.state = .running then .ok t.specFatal
  else do
    check (t.state = .paused)
    check ((t.lane .send).wrkLen = 0)
    check ((t.lane .recv).wrkLen = 0)
    .ok ((t.setLane d { t.lane d with wrkLen := len }).await (.transfer d len))

/-- The tunnel runs again. The command does not wait. -/
def Tunnel.resume (t : Tunnel) : Tunnel :=
  { t with state := .running, poll := t.poll.signal, spec := .ready }

def cmdTunnelResume (t : Tunnel) : Res Tunnel :=
  if t.state = .running then .ok t.specFatal
  else do
    check (t.state = .paused)
    .ok t.resume

/-- A command starts with `tunnel_is_open`. -/
def Tunnel.start (t : Tunnel) (c : Cmd) : Tunnel :=
  { t with spec := .checked c, mark := fun d => (t.lane d).written.length }

/-- The end of `tunnel_spec_thread`. The `resume` for a tunnel that is still paused is a command
like the others, and is left out in a test that has failed. -/
def Tunnel.finish (t : Tunnel) : Tunnel :=
  { t with state := .specDone, poll := t.poll.signal, spec := .ended }

/-! ## The poll thread -/

/-- The state is looked at, or waited for. -/
def choose (t : Tunnel) : Tunnel :=
  if t.state = .accept && !t.vtcStop then t.goto (.acceptWait false)
  else t.goto (.sampled t.state)

/-- Where `tunnel_read` returns to. -/
def PollPc.after : Dir → PollPc
  | .send => .enter .recv
  | .recv => .test

/-- How much `tunnel_read` asks for. -/
def readLen (len : Nat) : Nat := if len = 0 ∨ 1024 < len then 1024 else len

/-- `tunnel_read` up to its `read`. -/
def tunnelRead (t : Tunnel) (d : Dir) : Res Tunnel :=
  if t.ready d then do
    check ((t.lane d).bufLen = 0)
    if (t.lane d).wrkLen = 0 && t.state = .paused then .ok (t.goto (.after d))
    else .ok (t.goto (.fetch d (readLen (t.lane d).wrkLen)))
  else .ok (t.goto (.after d))

/-- `read` returns `data`; no data is the end of the file. -/
def Tunnel.fetched (t : Tunnel) (d : Dir) (data : Bytes) : Tunnel :=
  (t.setLane d { t.lane d with
    buf := put (t.lane d).buf 0 data
    read := (t.lane d).read ++ data }).goto (.store d data.length)

/-- The end of `tunnel_read`. -/
def Tunnel.stored (t : Tunnel) (d : Dir) (res : Nat) : Tunnel :=
  (t.setLane d { t.lane d with bufLen := if res = 0 then -1 else res }).goto (.after d)

/-- Between the reads and the writes. -/
def testPaused (t : Tunnel) : Res Tunnel :=
  if t.state = .paused ∧ (t.lane .send).wrkLen = 0 ∧ (t.lane .recv).wrkLen = 0 then do
    check ((t.lane .send).bufLen = 0)
    check ((t.lane .recv).bufLen = 0)
    .ok ((t.wake .spec).goto (.testWait false))
  else .ok (t.goto .resumed)

/-- `write` takes `k` bytes. -/
def Tunnel.wrote (t : Tunnel) (d : Dir) (p : Nat) (l : Int) (k : Nat) : Tunnel :=
  (t.setLane d { t.lane d with
    written := (t.lane d).written ++ ((t.lane d).buf.drop p).take k }).goto
      (.write d (p + k) (l - k))

/-- The lane at the end of `tunnel_write`. -/
def Lane.settle (lane : Lane) (l : Int) : Res Lane :=
  if 0 < lane.wrkLen ∧ lane.bufLen ≠ -1 then do
    check (0 ≤ lane.bufLen)
    check (lane.bufLen ≤ lane.wrkLen)
    .ok { lane with wrkLen := lane.wrkLen - lane.bufLen.toNat, bufLen := l }
  else .ok { lane with bufLen := l }

/-- What `tunnel_write` is called for next, or the end of the loop. -/
def Tunnel.next (t : Tunnel) : Dir → Tunnel
  | .send => t.goto (.write .recv 0 (t.lane .recv).bufLen)
  | .recv => t.goto .head

def commit (t : Tunnel) (d : Dir) (l : Int) : Res Tunnel := do
  let lane ← (t.lane d).settle l
  .ok ((t.setLane d lane).next d)

/-- Behind the loop. -/
def Tunnel.endPoll (t : Tunnel) : Tunnel :=
  if t.state ≠ .specDone && !t.vtcStop then (t.wake .spec).goto (.endWait false)
  else t.goto .closing

/-- The steps of the poll thread in which nothing comes from outside. -/
def pollStep (t : Tunnel) : Res Tunnel :=
  match t.poll with
  | .head => .ok (t.goto (if t.tunnelIsOpen && !t.vtcStop then .choose else .ending))
  | .choose => .ok (choose t)
  | .acceptWait true => .ok (choose t)
  | .sampled s =>
    if t.vtcStop then .ok (t.goto .ending)
    else do
      check (s ≠ .pollDone ∧ s ≠ .stopped)
      .ok (t.goto .polling)
  | .enter d => tunnelRead t d
  | .store d res => .ok (t.stored d res)
  | .test => testPaused t
  | .testWait true => .ok (t.goto .resumed)
  | .resumed =>
    .ok (t.goto (if t.vtcStop then .ending else .write .send 0 (t.lane .send).bufLen))
  | .write d _ l => if l ≤ 0 then commit t d l else .error .fuel
  | .ending => .ok t.endPoll
  | .endWait true => .ok (t.goto .closing)
  | .closing => .ok ((t.setState .pollDone).goto .done)
  | .polling | .fetch .. | .acceptWait false | .testWait false | .endWait false | .done =>
    .error .fuel

/-! ## The machine -/

inductive Act where
  | begin
  | accept
  | start (c : Cmd)
  | lock
  | specWake
  | finish
  | pollStep
  | polled (send recv : Bool)
  | read (data : Bytes)
  | write (k : Nat)
  | tunnelWait (th : Thread)
  | spurious (th : Thread)
  | stop
  deriving DecidableEq, Repr

def step (t : Tunnel) : Act → Res Tunnel
  | .begin =>
    match t.spec with
    | .started => do
      check (t.state = .accept)
      .ok { t with spec := .accepting }
    | _ => .error .fuel
  | .accept =>
    match t.spec with
    | .accepting => .ok t.accept
    | _ => .error .fuel
  | .start c =>
    match t.spec with
    | .ready => .ok (if t.tunnelIsOpen then t.start c else t.specFatal)
    | _ => .error .fuel
  | .lock =>
    match t.spec with
    | .checked .pause => cmdTunnelPause t
    | .checked (.transfer d len) => cmdTunnelSend t d len
    | .checked .resume => cmdTunnelResume t
    | _ => .error .fuel
  | .specWake =>
    match t.spec with
    | .waiting _ true => .ok { t with spec := .ready }
    | _ => .error .fuel
  | .finish =>
    match t.spec with
    | .ready => .ok t.finish
    | _ => .error .fuel
  | .pollStep => pollStep t
  | .polled send recv =>
    match t.poll with
    | .polling =>
      .ok { t with ready := fun | .send => send | .recv => recv, poll := .enter .send }
    | _ => .error .fuel
  | .read data =>
    match t.poll with
    | .fetch d len => if data.length ≤ len then .ok (t.fetched d data) else .error .fuel
    | _ => .error .fuel
  | .write k =>
    match t.poll with
    | .write d p l => if 0 < k ∧ k ≤ l then .ok (t.wrote d p l k) else .error .fuel
    | _ => .error .fuel
  | .tunnelWait th =>
    if t.blocked th || !(t.blocked .spec || t.blocked .poll) then .ok (t.wake th)
    else .error .fuel
  | .spurious th => .ok (t.wake th)
  | .stop => .ok { t with vtcStop := true }

/-- The tunnel after `tunnel_start`, or `tunnel_start_pause`. -/
def tunnelStart (startPaused : Bool) : Tunnel where
  startPaused := startPaused

/-! ## What a step does -/

/-- All that a step can do. -/
inductive Step (t : Tunnel) : Act → Tunnel → Prop where
  | begin (hs : t.spec = .started) (hst : t.state = .accept) :
      Step t .begin { t with spec := .accepting }
  | accept (hs : t.spec = .accepting) : Step t .accept t.accept
  | start {c : Cmd} (hs : t.spec = .ready) (ho : t.tunnelIsOpen = true) :
      Step t (.start c) (t.start c)
  | refuse {a : Act} (hs : t.spec = .ready ∨ ∃ c, t.spec = .checked c) : Step t a t.specFatal
  | pause (hs : t.spec = .checked .pause) (hst : t.state = .running) :
      Step t .lock ((t.setState .paused).await .pause)
  | transfer {d : Dir} {len : Nat} (hs : t.spec = .checked (.transfer d len))
      (hst : t.state = .paused) (hw : ∀ e, (t.lane e).wrkLen = 0) :
      Step t .lock ((t.setLane d { t.lane d with wrkLen := len }).await (.transfer d len))
  | resume (hs : t.spec = .checked .resume) (hst : t.state = .paused) :
      Step t .lock t.resume
  | specWake {c : Cmd} (hs : t.spec = .waiting c true) : Step t .specWake { t with spec := .ready }
  | finish (hs : t.spec = .ready) : Step t .finish t.finish
  | opened (hp : t.poll = .head) (ho : t.tunnelIsOpen = true) (hv : t.vtcStop = false) :
      Step t .pollStep (t.goto .choose)
  | closed (hp : t.poll = .head) (ho : t.tunnelIsOpen = false ∨ t.vtcStop = true) :
      Step t .pollStep (t.goto .ending)
  | acceptWait (hp : t.poll = .choose ∨ t.poll = .acceptWait true) (hst : t.state = .accept)
      (hv : t.vtcStop = false) : Step t .pollStep (t.goto (.acceptWait false))
  | sample (hp : t.poll = .choose ∨ t.poll = .acceptWait true)
      (hst : t.state = .accept → t.vtcStop = true) : Step t .pollStep (t.goto (.sampled t.state))
  | stopped (hp : (∃ s, t.poll = .sampled s) ∨ t.poll = .resumed) (hv : t.vtcStop = true) :
      Step t .pollStep (t.goto .ending)
  | poll {s : State} (hp : t.poll = .sampled s) (hv : t.vtcStop = false) :
      Step t .pollStep (t.goto .polling)
  | polled {send recv : Bool} (hp : t.poll = .polling) : Step t (.polled send recv)
      { t with ready := fun | .send => send | .recv => recv, poll := .enter .send }
  | skip {d : Dir} (hp : t.poll = .enter d)
      (hw : t.ready d = true → (t.lane d).wrkLen = 0 ∧ t.state = .paused) :
      Step t .pollStep (t.goto (.after d))
  | enter {d : Dir} (hp : t.poll = .enter d) (hb : (t.lane d).bufLen = 0)
      (hw : (t.lane d).wrkLen = 0 → t.state ≠ .paused) :
      Step t .pollStep (t.goto (.fetch d (readLen (t.lane d).wrkLen)))
  | read {d : Dir} {len : Nat} {data : Bytes} (hp : t.poll = .fetch d len)
      (hl : data.length ≤ len) : Step t (.read data) (t.fetched d data)
  | store {d : Dir} {res : Nat} (hp : t.poll = .store d res) : Step t .pollStep (t.stored d res)
  | signal (hp : t.poll = .test) (hst : t.state = .paused) (hw : ∀ e, (t.lane e).wrkLen = 0)
      (hb : ∀ e, (t.lane e).bufLen = 0) :
      Step t .pollStep ((t.wake .spec).goto (.testWait false))
  | pass (hp : t.poll = .test)
      (hw : ¬(t.state = .paused ∧ (t.lane .send).wrkLen = 0 ∧ (t.lane .recv).wrkLen = 0)) :
      Step t .pollStep (t.goto .resumed)
  | testWake (hp : t.poll = .testWait true) : Step t .pollStep (t.goto .resumed)
  | resumed (hp : t.poll = .resumed) (hv : t.vtcStop = false) :
      Step t .pollStep (t.goto (.write .send 0 (t.lane .send).bufLen))
  | write {d : Dir} {p k : Nat} {l : Int} (hp : t.poll = .write d p l) (h0 : 0 < k) (hk : k ≤ l) :
      Step t (.write k) (t.wrote d p l k)
  | commit {d : Dir} {p : Nat} {l : Int} {lane : Lane} (hp : t.poll = .write d p l) (hl : l ≤ 0)
      (hc : (t.lane d).settle l = .ok lane) : Step t .pollStep ((t.setLane d lane).next d)
  | ending (hp : t.poll = .ending) : Step t .pollStep t.endPoll
  | endWait (hp : t.poll = .endWait true) : Step t .pollStep (t.goto .closing)
  | closing (hp : t.poll = .closing) : Step t .pollStep ((t.setState .pollDone).goto .done)
  | tunnelWait {th : Thread} : Step t (.tunnelWait th) (t.wake th)
  | spurious {th : Thread} : Step t (.spurious th) (t.wake th)
  | stop : Step t .stop { t with vtcStop := true }

theorem forall_dir {P : Dir → Prop} (hs : P .send) (hr : P .recv) : ∀ d, P d
  | .send => hs
  | .recv => hr

section

variable {t t' : Tunnel}

theorem choose_cases (hp : t.poll = .choose ∨ t.poll = .acceptWait true) :
    Step t .pollStep (choose t) := by
  unfold choose
  split
  · rename_i h
    simp only [Bool.and_eq_true, decide_eq_true_eq, Bool.not_eq_true'] at h
    exact .acceptWait hp h.1 h.2
  · rename_i h
    refine .sample hp fun hst => ?_
    simpa [hst] using h

theorem lock_cases (h : step t .lock = .ok t') : Step t .lock t' := by
  simp only [step] at h
  split at h
  · rename_i hs
    unfold cmdTunnelPause at h
    split at h
    · cases h
      exact .refuse (.inr ⟨_, hs⟩)
    · obtain ⟨hst, h⟩ := check_bind_eq_ok.mp h
      cases h
      exact .pause hs (of_decide_eq_true hst)
  · rename_i d len hs
    unfold cmdTunnelSend at h
    split at h
    · cases h
      exact .refuse (.inr ⟨_, hs⟩)
    · obtain ⟨hst, h⟩ := check_bind_eq_ok.mp h
      obtain ⟨hw1, h⟩ := check_bind_eq_ok.mp h
      obtain ⟨hw2, h⟩ := check_bind_eq_ok.mp h
      cases h
      exact .transfer hs (of_decide_eq_true hst)
        (forall_dir (of_decide_eq_true hw1) (of_decide_eq_true hw2))
  · rename_i hs
    unfold cmdTunnelResume at h
    split at h
    · cases h
      exact .refuse (.inr ⟨_, hs⟩)
    · obtain ⟨hst, h⟩ := check_bind_eq_ok.mp h
      cases h
      exact .resume hs (of_decide_eq_true hst)
  · cases h

theorem tunnelRead_cases {d : Dir} (hp : t.poll = .enter d) (h : tunnelRead t d = .ok t') :
    Step t .pollStep t' := by
  unfold tunnelRead at h
  split at h
  · obtain ⟨hb, h⟩ := check_bind_eq_ok.mp h
    split at h
    · rename_i hw
      cases h
      exact .skip hp fun _ => by simpa using hw
    · rename_i hw
      cases h
      refine .enter hp (of_decide_eq_true hb) fun hw0 hst => hw ?_
      simp [hw0, hst]
  · rename_i hr
    cases h
    exact .skip hp fun hr' => absurd hr' hr

theorem testPaused_cases (hp : t.poll = .test) (h : testPaused t = .ok t') :
    Step t .pollStep t' := by
  unfold testPaused at h
  split at h
  · rename_i hc
    obtain ⟨hb1, h⟩ := check_bind_eq_ok.mp h
    obtain ⟨hb2, h⟩ := check_bind_eq_ok.mp h
    cases h
    exact .signal hp hc.1 (forall_dir hc.2.1 hc.2.2)
      (forall_dir (of_decide_eq_true hb1) (of_decide_eq_true hb2))
  · rename_i hc
    cases h
    exact .pass hp hc

theorem pollStep_cases (h : pollStep t = .ok t') : Step t .pollStep t' := by
  unfold pollStep at h
  split at h
  · rename_i hp
    cases h
    split
    · rename_i hc
      simp only [Bool.and_eq_true, Bool.not_eq_true'] at hc
      exact .opened hp hc.1 hc.2
    · rename_i hc
      refine .closed hp ?_
      cases ho : t.tunnelIsOpen with
      | true =>
        rw [ho] at hc
        exact .inr (by simpa using hc)
      | false => exact .inl rfl
  · rename_i hp
    cases h
    exact choose_cases (.inl hp)
  · rename_i hp
    cases h
    exact choose_cases (.inr hp)
  · rename_i s hp
    split at h
    · rename_i hv
      cases h
      exact .stopped (.inl ⟨s, hp⟩) hv
    · rename_i hv
      obtain ⟨-, h⟩ := check_bind_eq_ok.mp h
      cases h
      exact .poll hp (by simpa using hv)
  · rename_i d hp
    exact tunnelRead_cases hp h
  · rename_i d res hp
    cases h
    exact .store hp
  · rename_i hp
    exact testPaused_cases hp h
  · rename_i hp
    cases h
    exact .testWake hp
  · rename_i hp
    cases h
    split
    · rename_i hv
      exact .stopped (.inr hp) hv
    · rename_i hv
      exact .resumed hp (by simpa using hv)
  · rename_i d p l hp
    split at h
    · rename_i hl
      obtain ⟨lane, hc, h⟩ := bind_eq_ok.mp h
      cases h
      exact .commit hp hl hc
    · cases h
  · rename_i hp
    cases h
    exact .ending hp
  · rename_i hp
    cases h
    exact .endWait hp
  · rename_i hp
    cases h
    exact .closing hp
  all_goals cases h

theorem step_cases {a : Act} (h : step t a = .ok t') : Step t a t' := by
  cases a with
  | begin =>
    simp only [step] at h
    split at h
    · rename_i hs
      obtain ⟨hst, h⟩ := check_bind_eq_ok.mp h
      cases h
      exact .begin hs (of_decide_eq_true hst)
    · cases h
  | accept =>
    simp only [step] at h
    split at h
    · rename_i hs
      cases h
      exact .accept hs
    · cases h
  | start c =>
    simp only [step] at h
    split at h
    · rename_i hs
      cases h
      split
      · rename_i ho
        exact .start hs ho
      · exact .refuse (.inl hs)
    · cases h
  | lock => exact lock_cases h
  | specWake =>
    simp only [step] at h
    split at h
    · rename_i c hs
      cases h
      exact .specWake hs
    · cases h
  | finish =>
    simp only [step] at h
    split at h
    · rename_i hs
      cases h
      exact .finish hs
    · cases h
  | pollStep => exact pollStep_cases h
  | polled send recv =>
    simp only [step] at h
    split at h
    · rename_i hp
      cases h
      exact .polled hp
    · cases h
  | read data =>
    simp only [step] at h
    split at h
    · rename_i d len hp
      split at h
      · rename_i hl
        cases h
        exact .read hp hl
      · cases h
    · cases h
  | write k =>
    simp only [step] at h
    split at h
    · rename_i d p l hp
      split at h
      · rename_i hk
        cases h
        exact .write hp hk.1 hk.2
      · cases h
    · cases h
  | tunnelWait th =>
    simp only [step] at h
    split at h
    · cases h
      exact .tunnelWait
    · cases h
  | spurious th =>
    cases h
    exact .spurious
  | stop =>
    cases h
    exact .stop

end

end Tunnels
end VTest
