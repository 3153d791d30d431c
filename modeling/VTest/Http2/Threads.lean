import VTest.Http2.Assembly

/-!
# VTest.Http2.Threads

The receive thread of a connection and the stream threads that wait for its frames.

A stream thread that finds its queue empty in `rxstuff` says that it wants a frame (`s->wf`, and
`hp->wf` for the connection) and waits for its condition variable, once. `receive_frame` reads a
frame only while some stream wants one, looks for the stream of the frame, parses the frame without
the lock, puts it into the queue and clears the flag of the stream.

Each part of a thread between two calls that give the lock away or take it is one step of the
machine, and the steps of the threads come in any order. A frame is read as a whole. An action that
cannot be taken is no step.
-/

namespace VTest
namespace Http2

/-! ## State -/

/-- A stream thread outside of `rxstuff`, or waiting in it; `signaled` says that its condition
variable was signaled since the wait began. -/
inductive ThreadPc where
  | idle
  | waiting (signaled : Bool)
  deriving DecidableEq, Repr

/-- `pthread_cond_signal(&s->cond)`. -/
def ThreadPc.signal : ThreadPc → ThreadPc
  | .idle => .idle
  | .waiting _ => .waiting true

/-- Where `receive_frame` is: at its start, waiting for somebody who wants a frame, reading, with a
frame whose stream it looks for or waits for, with the stream found, with the frame parsed, or at
its end. -/
inductive RecvPc where
  | start
  | resting
  | reading
  | holding (f : Frame)
  | seeking (f : Frame)
  | found (f : Frame)
  | parsed (f : Frame)
  | ended
  deriving DecidableEq, Repr

/-- The connection. `ids` are the streams of `hp->streams`. `wire` is what the peer has sent or will
send and is not read yet. The last three fields are history: the frames that the calls of `rxstuff`
returned, the streams for which one has returned NULL, and whether a read has failed. -/
structure Net where
  rx : Rx := {}
  wf : Int := 0
  h2 : Bool := true
  ids : List Nat := []
  flag : Nat → Bool := fun _ => false
  thread : Nat → ThreadPc := fun _ => .idle
  recv : RecvPc := .start
  wire : List Frame := []
  returned : Nat → List Frame := fun _ => []
  null : Nat → Bool := fun _ => false
  failed : Bool := false

def Rx.setQueue (r : Rx) (id : Nat) (s : WinStream) (fq : List Frame) : Rx :=
  { r with win := r.win.setStream id { s with fq := fq } }

/-! ## Stream threads -/

/-- `stream_new` for an id that is not in use. -/
def createStream (n : Net) (id : Nat) : Res Net :=
  match n.rx.win.streams id with
  | some _ => .error .fuel
  | none => .ok { n with
      ids := id :: n.ids
      rx := { n.rx with
        win := streamNew n.rx.win id
        prio := ⟨id, 0, 16⟩ :: n.rx.prio } }

/-- `rxstuff` returns the oldest frame of the queue. -/
def Net.take (n : Net) (id : Nat) (s : WinStream) (f : Frame) (fq : List Frame) : Net :=
  { n with
    rx := n.rx.setQueue id s fq
    thread := Function.update n.thread id .idle
    returned := Function.update n.returned id (n.returned id ++ [f]) }

/-- The stream wants a frame. -/
def Net.want (n : Net) (id : Nat) : Net :=
  { n with
    wf := n.wf + 1
    flag := Function.update n.flag id true
    thread := Function.update n.thread id (.waiting false) }

/-- `rxstuff` returns NULL. -/
def Net.giveUp (n : Net) (id : Nat) : Net :=
  { n with
    thread := Function.update n.thread id .idle
    null := Function.update n.null id true }

/-- `rxstuff` up to its wait, or to its end. -/
def rxstuffEnter (n : Net) (id : Nat) : Res Net :=
  match n.thread id, n.rx.win.streams id with
  | .idle, some s =>
    match s.fq with
    | [] => do
      check (0 ≤ n.wf)
      .ok (n.want id)
    | f :: fq => .ok (n.take id s f fq)
  | _, _ => .error .fuel

/-- `rxstuff` from the end of its wait. -/
def rxstuffWake (n : Net) (id : Nat) : Res Net :=
  match n.thread id, n.rx.win.streams id with
  | .waiting _, some s =>
    match s.fq with
    | [] => .ok (n.giveUp id)
    | f :: fq => .ok (n.take id s f fq)
  | _, _ => .error .fuel

/-! ## The receive thread -/

def Net.goto (n : Net) (pc : RecvPc) : Net := { n with recv := pc }

def Net.setRx (n : Net) (rx : Rx) : Net := { n with rx := rx }

/-- The head of the loop of `receive_frame`. -/
def loopHead (n : Net) : Res Net :=
  if n.h2 then do
    check (0 ≤ n.wf)
    .ok (n.goto (if n.wf = 0 then .resting else .reading))
  else .ok (n.goto .ended)

/-- A read fails: all streams are signaled. -/
def Net.fail (n : Net) : Net :=
  { n with recv := .ended, failed := true, thread := fun id => (n.thread id).signal }

/-- The search for the stream of a frame. -/
def lookFor (n : Net) (f : Frame) : Net :=
  match n.rx.win.streams f.stid with
  | none => n.goto (.seeking f)
  | some _ => if n.h2 then n.goto (.found f) else n.goto .ended

def parseFound (n : Net) (f : Frame) : Res Net := do
  let p ← handleFrame n.rx f
  .ok ((n.setRx p.1).goto (.parsed p.2))

/-- The stream gets what it wants. -/
def Net.serve (n : Net) (id : Nat) : Net :=
  { n with
    wf := n.wf - 1
    flag := Function.update n.flag id false
    thread := Function.update n.thread id (n.thread id).signal }

/-- From where the frame is queued to the head of the loop. -/
def queueParsed (n : Net) (f : Frame) : Res Net := do
  let rx ← n.rx.enqueue f
  if n.flag f.stid then do
    check (0 < n.wf)
    loopHead ((n.setRx rx).serve f.stid)
  else loopHead (n.setRx rx)

/-! ## The machine -/

inductive NetAct where
  | create (id : Nat)
  | rxstuff (id : Nat)
  | wake (id : Nat)
  | start
  | rest
  | read
  | fail
  | find
  | seek
  | parse
  | queue
  | stop
  deriving DecidableEq, Repr

def netStep (n : Net) : NetAct → Res Net
  | .create id => createStream n id
  | .rxstuff id => rxstuffEnter n id
  | .wake id => rxstuffWake n id
  | .start =>
    match n.recv with
    | .start => loopHead n
    | _ => .error .fuel
  | .rest =>
    match n.recv with
    | .resting => loopHead n
    | _ => .error .fuel
  | .read =>
    match n.recv, n.wire with
    | .reading, f :: wire => .ok { n with recv := .holding f, wire := wire }
    | _, _ => .error .fuel
  | .fail =>
    match n.recv with
    | .reading => .ok n.fail
    | _ => .error .fuel
  | .find =>
    match n.recv with
    | .holding f => .ok (lookFor n f)
    | _ => .error .fuel
  | .seek =>
    match n.recv with
    | .seeking f => .ok (if n.h2 then lookFor n f else n.goto .ended)
    | _ => .error .fuel
  | .parse =>
    match n.recv with
    | .found f => parseFound n f
    | _ => .error .fuel
  | .queue =>
    match n.recv with
    | .parsed f => queueParsed n f
    | _ => .error .fuel
  | .stop => .ok { n with h2 := false }

/-- The connection after `start_h2`, with `wire` to be read. -/
def startH2 (fatal server : Bool) (wire : List Frame) : Net where
  rx := { win := { fatal := fatal }, server := server }
  wire := wire

/-! ## What a step does -/

/-- All that a step can do. -/
inductive NetStep (n : Net) : NetAct → Net → Prop where
  | create {id : Nat} {n' : Net} (h : n.rx.win.streams id = none)
      (hn : createStream n id = .ok n') : NetStep n (.create id) n'
  | want {id : Nat} {s : WinStream} (ht : n.thread id = .idle)
      (hs : n.rx.win.streams id = some s) (hq : s.fq = []) (hw : 0 ≤ n.wf) :
      NetStep n (.rxstuff id) (n.want id)
  | takeNow {id : Nat} {s : WinStream} {f : Frame} {fq : List Frame} (ht : n.thread id = .idle)
      (hs : n.rx.win.streams id = some s) (hq : s.fq = f :: fq) :
      NetStep n (.rxstuff id) (n.take id s f fq)
  | giveUp {id : Nat} {sg : Bool} {s : WinStream} (ht : n.thread id = .waiting sg)
      (hs : n.rx.win.streams id = some s) (hq : s.fq = []) : NetStep n (.wake id) (n.giveUp id)
  | takeThen {id : Nat} {sg : Bool} {s : WinStream} {f : Frame} {fq : List Frame}
      (ht : n.thread id = .waiting sg) (hs : n.rx.win.streams id = some s)
      (hq : s.fq = f :: fq) : NetStep n (.wake id) (n.take id s f fq)
  | head {a : NetAct} {n' : Net} (hr : n.recv = .start ∨ n.recv = .resting)
      (h : loopHead n = .ok n') : NetStep n a n'
  | read {f : Frame} {wire : List Frame} (hr : n.recv = .reading) (hw : n.wire = f :: wire) :
      NetStep n .read { n with recv := .holding f, wire := wire }
  | fail (hr : n.recv = .reading) : NetStep n .fail n.fail
  | look {a : NetAct} {f : Frame} (hr : n.recv = .holding f ∨ n.recv = .seeking f) :
      NetStep n a (lookFor n f)
  | leave {a : NetAct} (hh : n.h2 = false) : NetStep n a (n.goto .ended)
  | parse {f : Frame} {p : Rx × Frame} (hr : n.recv = .found f)
      (h : handleFrame n.rx f = .ok p) : NetStep n .parse ((n.setRx p.1).goto (.parsed p.2))
  | serve {f : Frame} {rx : Rx} {n' : Net} (hr : n.recv = .parsed f)
      (hq : n.rx.enqueue f = .ok rx) (hf : n.flag f.stid = true) (hw : 0 < n.wf)
      (h : loopHead ((n.setRx rx).serve f.stid) = .ok n') : NetStep n .queue n'
  | queue {f : Frame} {rx : Rx} {n' : Net} (hr : n.recv = .parsed f)
      (hq : n.rx.enqueue f = .ok rx) (hf : n.flag f.stid = false)
      (h : loopHead (n.setRx rx) = .ok n') : NetStep n .queue n'
  | stop : NetStep n .stop { n with h2 := false }

theorem netStep_cases {n n' : Net} {a : NetAct} (h : netStep n a = .ok n') : NetStep n a n' := by
  cases a with
  | create id =>
    have h' : createStream n id = .ok n' := h
    cases hs : n.rx.win.streams id with
    | none => exact .create hs h'
    | some s => simp [createStream, hs] at h'
  | rxstuff id =>
    simp only [netStep, rxstuffEnter] at h
    split at h
    · rename_i s ht hs
      split at h
      · rename_i hq
        obtain ⟨hw, h⟩ := check_bind_eq_ok.mp h
        cases h
        exact .want ht hs hq (of_decide_eq_true hw)
      · rename_i f fq hq
        cases h
        exact .takeNow ht hs hq
    · cases h
  | wake id =>
    simp only [netStep, rxstuffWake] at h
    split at h
    · rename_i sg s ht hs
      split at h
      · rename_i hq
        cases h
        exact .giveUp ht hs hq
      · rename_i f fq hq
        cases h
        exact .takeThen ht hs hq
    · cases h
  | start =>
    simp only [netStep] at h
    split at h
    · rename_i hr
      exact .head (.inl hr) h
    · cases h
  | rest =>
    simp only [netStep] at h
    split at h
    · rename_i hr
      exact .head (.inr hr) h
    · cases h
  | read =>
    simp only [netStep] at h
    split at h
    · rename_i f wire hr hw
      cases h
      exact .read hr hw
    · cases h
  | fail =>
    simp only [netStep] at h
    split at h
    · rename_i hr
      cases h
      exact .fail hr
    · cases h
  | find =>
    simp only [netStep] at h
    split at h
    · rename_i f hr
      cases h
      exact .look (.inl hr)
    · cases h
  | seek =>
    simp only [netStep] at h
    split at h
    · rename_i f hr
      cases hh : n.h2 with
      | true =>
        rw [hh] at h
        cases h
        exact .look (.inr hr)
      | false =>
        rw [hh] at h
        cases h
        exact .leave hh
    · cases h
  | parse =>
    simp only [netStep] at h
    split at h
    · rename_i f hr
      obtain ⟨p, hp, h⟩ := bind_eq_ok.mp h
      cases h
      exact .parse hr hp
    · cases h
  | queue =>
    simp only [netStep] at h
    split at h
    · rename_i f hr
      obtain ⟨rx, hq, h⟩ := bind_eq_ok.mp h
      split at h
      · rename_i hf
        obtain ⟨hw, h⟩ := check_bind_eq_ok.mp h
        exact .serve hr hq hf (of_decide_eq_true hw) h
      · rename_i hf
        exact .queue hr hq (Bool.not_eq_true _ ▸ hf) h
    · cases h
  | stop =>
    cases h
    exact .stop

end Http2
end VTest
