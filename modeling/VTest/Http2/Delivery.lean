import VTest.Http2.Threads

/-!
# VTest.Http2.Delivery

Every stream gets its frames, all of them and in their order.

For each stream the frames are on one line: those that `rxstuff` has returned, those in the queue,
the one that the receive thread has in hand, and those that are not read yet. A step moves a frame
along the line (`netStep_line`) and never changes it otherwise, up to what the parser of the frame
stores in it. So what is returned is always a prefix of what was sent. The connection must not be
stopped: the receive thread then drops the frame it has in hand.
-/

namespace VTest
namespace Http2

/-! ## The line of a stream -/

/-- The frames of a stream. -/
def onStream (id : Nat) (l : List Frame) : List Frame := l.filter (·.stid = id)

def RecvPc.inHand : RecvPc → List Frame
  | .holding f | .seeking f | .found f | .parsed f => [f]
  | .start | .resting | .reading | .ended => []

def Net.line (n : Net) (id : Nat) : List Frame :=
  (n.returned id ++ n.rx.queue id ++ onStream id (n.recv.inHand ++ n.wire)).map Frame.sent

theorem onStream_cons_self (f : Frame) (l : List Frame) :
    onStream f.stid (f :: l) = f :: onStream f.stid l := by
  simp [onStream]

theorem onStream_cons_of_ne {f : Frame} {id : Nat} (h : id ≠ f.stid) (l : List Frame) :
    onStream id (f :: l) = onStream id l := by
  simp [onStream, Ne.symm h]

theorem stid_of_sent {f g : Frame} (h : g.sent = f.sent) : g.stid = f.stid := by
  change g.sent.stid = f.sent.stid
  rw [h]

theorem map_sent_onStream_cons {f g : Frame} (h : g.sent = f.sent) (id : Nat) (l : List Frame) :
    (onStream id (g :: l)).map Frame.sent = (onStream id (f :: l)).map Frame.sent := by
  have hst := stid_of_sent h
  by_cases hi : id = f.stid
  · subst hi
    rw [onStream_cons_self, ← hst, onStream_cons_self, List.map_cons, List.map_cons, h]
  · rw [onStream_cons_of_ne hi, onStream_cons_of_ne (hst ▸ hi)]

/-! ## The queues -/

theorem Rx.queue_of_some {r : Rx} {id : Nat} {s : WinStream} (h : r.win.streams id = some s) :
    r.queue id = s.fq := by
  rw [Rx.queue, h]

theorem SameQueues.queue_eq {r r' : Rx} (h : SameQueues r.win r'.win) (id : Nat) :
    r'.queue id = r.queue id := by
  cases hs : r.win.streams id with
  | none =>
    have hs' : r'.win.streams id = none := by
      rw [← Option.not_isSome_iff_eq_none, h.isSome, hs]
      simp
    rw [Rx.queue, Rx.queue, hs, hs']
  | some s =>
    obtain ⟨s', hs', hq⟩ := h.fq id s hs
    rw [Rx.queue_of_some hs, Rx.queue_of_some hs', hq]

theorem Rx.setQueue_self (r : Rx) (id : Nat) (s : WinStream) (fq : List Frame) :
    (r.setQueue id s fq).queue id = fq :=
  Rx.queue_of_some (s := { s with fq := fq }) (Function.update_self ..)

theorem Rx.setQueue_of_ne (r : Rx) {i id : Nat} (h : i ≠ id) (s : WinStream) (fq : List Frame) :
    (r.setQueue id s fq).queue i = r.queue i := by
  rw [Rx.queue, Rx.queue]
  simp [Rx.setQueue, WinEnd.setStream, h]

/-- A frame that is queued is the last one of its queue. -/
theorem enqueue_eq_ok {r r' : Rx} {f : Frame} (h : r.enqueue f = .ok r') :
    ∃ s, r.win.streams f.stid = some s ∧ r' = r.setQueue f.stid s (r.queue f.stid ++ [f]) := by
  obtain ⟨s, hs, h⟩ := bind_eq_ok.mp h
  unfold WinEnd.stream at hs
  split at hs
  · rename_i s' hs'
    cases hs
    cases h
    exact ⟨s, hs', by rw [Rx.queue_of_some hs']; rfl⟩
  · cases hs

theorem handleFrame_same {r : Rx} {f : Frame} {p : Rx × Frame} (h : handleFrame r f = .ok p) :
    SameQueues r.win p.1.win ∧ p.2.sent = f.sent := by
  obtain ⟨s, hs, -, h⟩ := handleFrame_eq_ok h
  have frag : ∀ {r1 : Rx}, r1.win = r.win → addFragment r1 f = .ok p →
      SameQueues r.win p.1.win ∧ p.2.sent = f.sent := by
    intro r1 hw h2
    obtain ⟨-, -, -, -, hwin, hsent, -⟩ := addFragment_eq_ok h2
    rw [hwin, hw]
    exact ⟨.refl _, hsent⟩
  unfold switchType at h
  split at h
  · obtain ⟨r1, h1, h2⟩ := bind_eq_ok.mp h
    exact frag (openBlock_eq_ok h1).2.2.2 h2
  split at h
  · obtain ⟨r1, h1, h2⟩ := bind_eq_ok.mp h
    exact frag (openBlock_eq_ok h1).2.2.2 h2
  split at h
  · exact frag rfl h
  · exact (handleOther_same hs h).2

/-! ## One step -/

section

variable {n n' : Net} {id : Nat}

theorem line_goto (n : Net) {pc : RecvPc} (h : pc.inHand = n.recv.inHand) (id : Nat) :
    (n.goto pc).line id = n.line id := by
  simp only [Net.line, Net.goto, h]

theorem createStream_eq_ok (h : createStream n id = .ok n') :
    n.rx.win.streams id = none ∧ n' = { n with
      ids := id :: n.ids
      rx := { n.rx with
        win := n.rx.win.setStream id { winSelf := n.rx.win.selfInit, winPeer := n.rx.win.peerInit }
        prio := ⟨id, 0, 16⟩ :: n.rx.prio } } := by
  unfold createStream at h
  split at h
  · cases h
  · rename_i hs
    cases h
    exact ⟨hs, by rw [streamNew, hs]⟩

theorem createStream_queue (h : createStream n id = .ok n') (i : Nat) :
    n'.rx.queue i = n.rx.queue i := by
  obtain ⟨hs, rfl⟩ := createStream_eq_ok h
  rw [Rx.queue, Rx.queue]
  by_cases hi : i = id
  · subst hi
    simp [hs, WinEnd.setStream]
  · simp [WinEnd.setStream, hi]

theorem line_create (h : createStream n id = .ok n') (i : Nat) : n'.line i = n.line i := by
  have hq := createStream_queue h i
  obtain ⟨-, rfl⟩ := createStream_eq_ok h
  simp only [Net.line, hq]

/-- `rxstuff` moves the oldest frame of the queue to the frames it has returned. -/
theorem line_take {s : WinStream} {f : Frame} {fq : List Frame}
    (hs : n.rx.win.streams id = some s) (hq : s.fq = f :: fq) (i : Nat) :
    (n.take id s f fq).line i = n.line i := by
  unfold Net.line Net.take
  by_cases hi : i = id
  · subst hi
    simp [Rx.setQueue_self, Rx.queue_of_some hs, hq]
  · simp [Rx.setQueue_of_ne _ hi, hi]

theorem line_look (hh : n.h2 = true) {f : Frame} (hr : n.recv.inHand = [f]) (id : Nat) :
    (lookFor n f).line id = n.line id ∧ (lookFor n f).h2 = true := by
  have goto : ∀ pc : RecvPc, pc.inHand = [f] → (n.goto pc).line id = n.line id :=
    fun pc h => line_goto n (h.trans hr.symm) id
  unfold lookFor
  split
  · exact ⟨goto (.seeking f) rfl, hh⟩
  · rw [if_pos hh]
    exact ⟨goto (.found f) rfl, hh⟩

theorem line_parse {f : Frame} {p : Rx × Frame} (hr : n.recv = .found f)
    (h : handleFrame n.rx f = .ok p) (id : Nat) :
    ((n.setRx p.1).goto (.parsed p.2)).line id = n.line id := by
  obtain ⟨hq, hsent⟩ := handleFrame_same h
  simp only [Net.line, Net.setRx, Net.goto, hr, RecvPc.inHand, hq.queue_eq, List.map_append,
    List.singleton_append, map_sent_onStream_cons hsent]

/-- The head of the loop has nothing in hand. -/
theorem loopHead_eq_ok (hh : n.h2 = true) (h : loopHead n = .ok n') :
    0 ≤ n.wf ∧ n' = n.goto (if n.wf = 0 then .resting else .reading) := by
  rw [loopHead, if_pos hh] at h
  obtain ⟨hw, h⟩ := check_bind_eq_ok.mp h
  cases h
  exact ⟨of_decide_eq_true hw, rfl⟩

theorem inHand_head (n : Net) :
    (if n.wf = 0 then RecvPc.resting else RecvPc.reading).inHand = [] := by
  split <;> rfl

/-- Queueing a frame moves it from the hand of the receive thread to the end of the queue. The
counter and the flags are not on the line. -/
theorem line_queue {m : Net} {f : Frame} {rx : Rx} (hr : n.recv = .parsed f)
    (hq : n.rx.enqueue f = .ok rx) (hh : m.h2 = true) (hret : m.returned = n.returned)
    (hwire : m.wire = n.wire) (hrx : m.rx = rx) (hl : loopHead m = .ok n') (id : Nat) :
    n'.line id = n.line id ∧ n'.h2 = true := by
  obtain ⟨s, -, rfl⟩ := enqueue_eq_ok hq
  obtain ⟨-, rfl⟩ := loopHead_eq_ok hh hl
  refine ⟨?_, hh⟩
  simp only [Net.line, Net.goto, inHand_head, hret, hwire, hrx]
  simp only [hr, RecvPc.inHand, List.singleton_append, List.nil_append]
  by_cases hi : id = f.stid
  · subst hi
    rw [Rx.setQueue_self, onStream_cons_self]
    simp
  · rw [Rx.setQueue_of_ne _ hi, onStream_cons_of_ne hi]

/-- A step of a connection that is not stopped leaves the line of every stream as it is. -/
theorem netStep_line {a : NetAct} (hh : n.h2 = true) (ha : a ≠ .stop)
    (h : netStep n a = .ok n') (id : Nat) : n'.line id = n.line id ∧ n'.h2 = true := by
  cases netStep_cases h with
  | create hs hn =>
    refine ⟨line_create hn id, ?_⟩
    obtain ⟨-, rfl⟩ := createStream_eq_ok hn
    exact hh
  | want => exact ⟨rfl, hh⟩
  | takeNow ht hs hq => exact ⟨line_take hs hq id, hh⟩
  | giveUp => exact ⟨rfl, hh⟩
  | takeThen ht hs hq => exact ⟨line_take hs hq id, hh⟩
  | head hr hl =>
    obtain ⟨-, rfl⟩ := loopHead_eq_ok hh hl
    refine ⟨line_goto n ?_ id, hh⟩
    rw [inHand_head]
    rcases hr with hr | hr <;> rw [hr] <;> rfl
  | read hr hw =>
    refine ⟨?_, hh⟩
    simp only [Net.line, hr, hw, RecvPc.inHand, List.singleton_append, List.nil_append]
  | fail hr =>
    refine ⟨?_, hh⟩
    simp only [Net.line, Net.fail, hr, RecvPc.inHand]
  | look hr =>
    refine line_look hh ?_ id
    rcases hr with hr | hr <;> rw [hr] <;> rfl
  | leave hn =>
    rw [hh] at hn
    cases hn
  | parse hr hp => exact ⟨line_parse hr hp id, hh⟩
  | @serve f rx n' hr hq hf hw hl =>
    exact line_queue (m := (n.setRx rx).serve f.stid) hr hq hh rfl rfl rfl hl id
  | @queue f rx n' hr hq hf hl =>
    exact line_queue (m := n.setRx rx) hr hq hh rfl rfl rfl hl id
  | stop => exact absurd rfl ha

end

/-! ## Whole runs -/

/-- A `RST_STREAM` frame. -/
def rstFrame (id : Nat) (err : UInt8) : Frame where
  size := 4
  stid := id
  type := typeRstStream
  flags := 0
  data := [0, 0, 0, err]

end Http2
end VTest
