import VTest.Http2.Delivery

/-!
# VTest.Http2.Wanted

The count of the streams that want a frame.

`Wanted` is the invariant of the connection: `hp->wf` is the number of streams whose flag is set,
and a stream thread that waits has its flag set, or finds a frame when it wakes up. It rests on two
things that the code does not see to: that a wait for `s->cond` ends only after a signal, and that
`rxstuff` is not called again once it has returned NULL, since the flag then stays set. `Proper`
says so about a step, and `wanted_counted_iff` that nothing less will do.
-/

namespace VTest
namespace Http2

/-! ## Counting -/

theorem countP_update {l : List Nat} {id : Nat} (hl : l.Nodup) (hid : id ∈ l) (flag : Nat → Bool)
    (b : Bool) :
    l.countP (Function.update flag id b) + (flag id).toNat = l.countP flag + b.toNat := by
  induction l with
  | nil => cases hid
  | cons x l ih =>
    obtain ⟨hx, hl⟩ := List.nodup_cons.mp hl
    by_cases he : id = x
    · subst he
      have hc : l.countP (Function.update flag id b) = l.countP flag := by
        refine List.countP_congr fun y hy => ?_
        rw [Function.update_of_ne (ne_of_mem_of_not_mem hy hx)]
      simp only [List.countP_cons, hc, Function.update_self]
      cases b <;> cases flag id <;> simp
    · have := ih hl (List.mem_of_ne_of_mem he hid)
      simp only [List.countP_cons, Function.update_of_ne (Ne.symm he)]
      omega

/-! ## The invariant -/

/-- What holds for each stream. A flag that is set after a call of `rxstuff` has returned NULL is
set for good. -/
structure StreamOk (n : Net) (id : Nat) : Prop where
  known : n.flag id = true → id ∈ n.ids
  empty : n.flag id = true → n.rx.queue id = []
  waiting : n.thread id = .waiting false → n.flag id = true
  signaled : n.thread id = .waiting true →
    n.rx.queue id ≠ [] ∨ n.failed = true ∧ n.flag id = true
  idle : n.thread id = .idle → n.flag id = true → n.null id = true
  null : n.null id = true → n.failed = true ∧ n.flag id = true

structure Wanted (n : Net) : Prop where
  nodup : n.ids.Nodup
  created : ∀ id, id ∈ n.ids ↔ (n.rx.win.streams id).isSome
  count : n.wf = n.ids.countP n.flag
  stream : ∀ id, StreamOk n id
  reading : n.recv = .reading → n.wf ≠ 0
  failed : n.failed = true → n.recv = .ended

/-- A wait for `s->cond` ends after a signal, or when no frame will come any more; and `rxstuff` is
not called on a stream for which it has returned NULL. -/
def Proper (n : Net) : NetAct → Prop
  | .wake id => n.thread id = .waiting false → n.failed = true
  | .rxstuff id => n.thread id = .idle → n.null id = false
  | _ => True

section

variable {n n' : Net} {id : Nat}

/-- A step that does not touch a stream. -/
theorem StreamOk.congr (h : StreamOk n id) (hids : n.ids ⊆ n'.ids) (hflag : n'.flag id = n.flag id)
    (hq : n'.rx.queue id = n.rx.queue id) (ht : n'.thread id = n.thread id)
    (hn : n'.null id = n.null id) (hf : n'.failed = n.failed) : StreamOk n' id where
  known hx := hids (h.known (hflag ▸ hx))
  empty hx := by rw [hq, h.empty (hflag ▸ hx)]
  waiting hx := by rw [hflag, h.waiting (ht ▸ hx)]
  signaled hx := by rw [hq, hf, hflag]; exact h.signaled (ht ▸ hx)
  idle hx hy := by rw [hn]; exact h.idle (ht ▸ hx) (hflag ▸ hy)
  null hx := by rw [hf, hflag]; exact h.null (hn ▸ hx)

theorem Wanted.wf_nonneg (h : Wanted n) : 0 ≤ n.wf := by
  rw [h.count]
  exact Int.natCast_nonneg _

theorem Wanted.wf_pos (h : Wanted n) (hf : n.flag id = true) : 0 < n.wf := by
  rw [h.count]
  exact Int.natCast_pos.mpr (List.countP_pos_iff.mpr ⟨id, (h.stream id).known hf, hf⟩)

theorem Wanted.exists_flag (h : Wanted n) (hw : n.wf ≠ 0) : ∃ id ∈ n.ids, n.flag id = true := by
  have hpos : 0 < n.ids.countP n.flag := by
    have := h.count
    omega
  exact List.countP_pos_iff.mp hpos

theorem Wanted.stream_some (h : Wanted n) (hf : n.flag id = true) :
    ∃ s, n.rx.win.streams id = some s ∧ s.fq = [] := by
  obtain ⟨s, hs⟩ := Option.isSome_iff_exists.mp ((h.created id).mp ((h.stream id).known hf))
  exact ⟨s, hs, (Rx.queue_of_some hs).symm.trans ((h.stream id).empty hf)⟩

theorem Wanted.mem_ids (h : Wanted n) {s : WinStream} (hs : n.rx.win.streams id = some s) :
    id ∈ n.ids :=
  (h.created id).mpr (by rw [hs]; rfl)

/-! ## Steps of the stream threads -/

theorem Wanted.create (h : Wanted n) (hc : createStream n id = .ok n') : Wanted n' := by
  have hq := createStream_queue hc
  obtain ⟨hs, rfl⟩ := createStream_eq_ok hc
  have hid : id ∉ n.ids := by
    rw [h.created, hs]
    simp
  have hflag : ¬n.flag id = true := fun hf => hid ((h.stream id).known hf)
  refine ⟨List.nodup_cons.mpr ⟨hid, h.nodup⟩, fun i => ?_, ?_, fun i => ?_, h.reading, h.failed⟩
  · by_cases hi : i = id
    · subst hi
      simp [WinEnd.setStream]
    · simp [WinEnd.setStream, hi, h.created]
  · rw [List.countP_cons_of_neg hflag]
    exact h.count
  · exact (h.stream i).congr (List.subset_cons_self ..) rfl (hq i) rfl rfl rfl

theorem Wanted.want (h : Wanted n) {s : WinStream} (hs : n.rx.win.streams id = some s)
    (hq : s.fq = []) (ht : n.thread id = .idle) (hnull : n.null id = false) :
    Wanted (n.want id) := by
  have hflag : n.flag id = false := by
    by_contra hf
    rw [(h.stream id).idle ht (by simpa using hf)] at hnull
    cases hnull
  have hc := countP_update h.nodup (h.mem_ids hs) n.flag true
  rw [hflag] at hc
  refine ⟨h.nodup, h.created, ?_, fun i => ?_, fun _ => ?_, h.failed⟩
  · show n.wf + 1 = ((n.ids.countP (Function.update n.flag id true) : Nat) : Int)
    rw [h.count]
    simp at hc
    omega
  · by_cases hi : i = id
    · subst hi
      have hf : (n.want i).flag i = true := Function.update_self ..
      have hw : (n.want i).thread i = .waiting false := Function.update_self ..
      exact {
        known := fun _ => h.mem_ids hs
        empty := fun _ => (Rx.queue_of_some hs).trans hq
        waiting := fun _ => hf
        signaled := fun hx => by rw [hw] at hx; cases hx
        idle := fun hx => by rw [hw] at hx; cases hx
        null := fun (hx : n.null i = true) => by rw [hnull] at hx; cases hx }
    · exact (h.stream i).congr (List.Subset.refl _) (Function.update_of_ne hi ..) rfl
        (Function.update_of_ne hi ..) rfl rfl
  · show n.wf + 1 ≠ 0
    have := h.wf_nonneg
    omega

theorem Wanted.take (h : Wanted n) {s : WinStream} {f : Frame} {fq : List Frame}
    (hs : n.rx.win.streams id = some s) (hq : s.fq = f :: fq) : Wanted (n.take id s f fq) := by
  have hflag : n.flag id ≠ true := fun hf => by
    have := (h.stream id).empty hf
    rw [Rx.queue_of_some hs, hq] at this
    cases this
  refine ⟨h.nodup, fun i => ?_, h.count, fun i => ?_, h.reading, h.failed⟩
  · show i ∈ n.ids ↔ (Function.update n.rx.win.streams id (some _) i).isSome
    by_cases hi : i = id
    · subst hi
      simp [h.mem_ids hs]
    · simp [hi, h.created]
  · by_cases hi : i = id
    · subst hi
      have hw : (n.take i s f fq).thread i = .idle := Function.update_self ..
      exact {
        known := fun hx => absurd hx hflag
        empty := fun hx => absurd hx hflag
        waiting := fun hx => by rw [hw] at hx; cases hx
        signaled := fun hx => by rw [hw] at hx; cases hx
        idle := fun _ hx => absurd hx hflag
        null := (h.stream i).null }
    · exact (h.stream i).congr (List.Subset.refl _) rfl (Rx.setQueue_of_ne _ hi ..)
        (Function.update_of_ne hi ..) rfl rfl

theorem Wanted.giveUp (h : Wanted n) {s : WinStream} {sg : Bool}
    (hs : n.rx.win.streams id = some s) (hq : s.fq = []) (ht : n.thread id = .waiting sg)
    (hok : n.thread id = .waiting false → n.failed = true) : Wanted (n.giveUp id) := by
  have hff : n.failed = true ∧ n.flag id = true := by
    cases sg with
    | false => exact ⟨hok ht, (h.stream id).waiting ht⟩
    | true =>
      rcases (h.stream id).signaled ht with hne | hff
      · exact absurd ((Rx.queue_of_some hs).trans hq) hne
      · exact hff
  refine ⟨h.nodup, h.created, h.count, fun i => ?_, h.reading, h.failed⟩
  by_cases hi : i = id
  · subst hi
    have hw : (n.giveUp i).thread i = .idle := Function.update_self ..
    exact {
      known := (h.stream i).known
      empty := (h.stream i).empty
      waiting := fun hx => by rw [hw] at hx; cases hx
      signaled := fun hx => by rw [hw] at hx; cases hx
      idle := fun _ _ => Function.update_self ..
      null := fun _ => hff }
  · exact (h.stream i).congr (List.Subset.refl _) rfl rfl (Function.update_of_ne hi ..)
      (Function.update_of_ne hi ..) rfl

/-! ## Steps of the receive thread -/

theorem Wanted.not_failed (h : Wanted n) (hr : n.recv ≠ .ended) : n.failed = false := by
  by_contra hf
  exact hr (h.failed (by simpa using hf))

theorem Wanted.goto (h : Wanted n) {pc : RecvPc} (hr : pc = .reading → n.wf ≠ 0)
    (hf : n.failed = true → pc = .ended) : Wanted (n.goto pc) :=
  ⟨h.nodup, h.created, h.count,
    fun i => (h.stream i).congr (List.Subset.refl _) rfl rfl rfl rfl rfl, hr, hf⟩

theorem Wanted.loopHead (h : Wanted n) (hf : n.failed = false) (hl : loopHead n = .ok n') :
    Wanted n' := by
  have goto : ∀ pc, (pc = .reading → n.wf ≠ 0) → Wanted (n.goto pc) := fun pc hr =>
    h.goto hr fun hx => by rw [hf] at hx; cases hx
  unfold Http2.loopHead at hl
  split at hl
  · obtain ⟨-, hl⟩ := check_bind_eq_ok.mp hl
    cases hl
    refine goto _ fun hr hw => ?_
    rw [if_pos hw] at hr
    cases hr
  · cases hl
    exact goto .ended nofun

theorem Wanted.look (h : Wanted n) (hf : n.failed = false) (f : Frame) : Wanted (lookFor n f) := by
  have goto : ∀ pc, pc ≠ .reading → Wanted (n.goto pc) := fun pc hr =>
    h.goto (fun he => absurd he hr) fun hx => by rw [hf] at hx; cases hx
  unfold lookFor
  split
  · exact goto (.seeking f) (by simp)
  · split
    · exact goto (.found f) (by simp)
    · exact goto .ended (by simp)

theorem Wanted.fail (h : Wanted n) : Wanted n.fail := by
  refine ⟨h.nodup, h.created, h.count, fun i => ?_, nofun, fun _ => rfl⟩
  have hi := h.stream i
  have hw : n.fail.thread i = (n.thread i).signal := rfl
  cases ht : n.thread i with
  | idle =>
    rw [ht] at hw
    exact {
      known := hi.known
      empty := hi.empty
      waiting := fun hx => by rw [hw] at hx; cases hx
      signaled := fun hx => by rw [hw] at hx; cases hx
      idle := fun _ => hi.idle ht
      null := fun hx => ⟨rfl, (hi.null hx).2⟩ }
  | waiting sg =>
    rw [ht] at hw
    refine {
      known := hi.known
      empty := hi.empty
      waiting := fun hx => by rw [hw] at hx; cases hx
      signaled := fun _ => ?_
      idle := fun hx => by rw [hw] at hx; cases hx
      null := fun hx => ⟨rfl, (hi.null hx).2⟩ }
    cases sg with
    | false => exact .inr ⟨rfl, hi.waiting ht⟩
    | true => exact (hi.signaled ht).imp_right fun hff => ⟨rfl, hff.2⟩

/-- The queues and the streams are all that matters of the rest. -/
theorem Wanted.setRx (h : Wanted n) {rx : Rx}
    (hs : ∀ i, (rx.win.streams i).isSome = (n.rx.win.streams i).isSome)
    (hq : ∀ i, rx.queue i = n.rx.queue i) : Wanted (n.setRx rx) :=
  ⟨h.nodup, fun i => (h.created i).trans (by rw [← hs i]; rfl), h.count,
    fun i => (h.stream i).congr (List.Subset.refl _) rfl (hq i) rfl rfl rfl, h.reading, h.failed⟩

theorem enqueue_isSome {r r' : Rx} {f : Frame} (h : r.enqueue f = .ok r') (i : Nat) :
    (r'.win.streams i).isSome = (r.win.streams i).isSome := by
  obtain ⟨s, hs, rfl⟩ := enqueue_eq_ok h
  show (Function.update r.win.streams f.stid (some _) i).isSome = _
  by_cases hi : i = f.stid
  · subst hi
    simp [hs]
  · simp [hi]

theorem enqueue_queue_self {r r' : Rx} {f : Frame} (h : r.enqueue f = .ok r') :
    r'.queue f.stid ≠ [] := by
  obtain ⟨s, hs, rfl⟩ := enqueue_eq_ok h
  rw [Rx.setQueue_self]
  simp

theorem enqueue_queue_of_ne {r r' : Rx} {f : Frame} (h : r.enqueue f = .ok r') {i : Nat}
    (hi : i ≠ f.stid) : r'.queue i = r.queue i := by
  obtain ⟨s, hs, rfl⟩ := enqueue_eq_ok h
  exact Rx.setQueue_of_ne _ hi ..

/-- A frame for a stream that does not want one. -/
theorem Wanted.enqueue (h : Wanted n) {f : Frame} {rx : Rx} (hq : n.rx.enqueue f = .ok rx)
    (hflag : n.flag f.stid = false) : Wanted (n.setRx rx) := by
  refine ⟨h.nodup, fun i => (h.created i).trans (by rw [← enqueue_isSome hq i]; rfl), h.count,
    fun i => ?_, h.reading, h.failed⟩
  by_cases hi : i = f.stid
  · subst hi
    have hi := h.stream f.stid
    exact {
      known := hi.known
      empty := fun (hx : n.flag f.stid = true) => by rw [hflag] at hx; cases hx
      waiting := hi.waiting
      signaled := fun _ => .inl (enqueue_queue_self hq)
      idle := hi.idle
      null := hi.null }
  · exact (h.stream i).congr (List.Subset.refl _) rfl (enqueue_queue_of_ne hq hi) rfl rfl rfl

/-- A frame for a stream that wants one. -/
theorem Wanted.serve (h : Wanted n) (hfail : n.failed = false) (hr : n.recv ≠ .reading) {f : Frame}
    {rx : Rx} (hq : n.rx.enqueue f = .ok rx) (hflag : n.flag f.stid = true) :
    Wanted ((n.setRx rx).serve f.stid) := by
  have hc := countP_update h.nodup ((h.stream f.stid).known hflag) n.flag false
  rw [hflag] at hc
  refine ⟨h.nodup, fun i => (h.created i).trans (by rw [← enqueue_isSome hq i]; rfl), ?_,
    fun i => ?_, fun hx => absurd hx hr, h.failed⟩
  · show n.wf - 1 = ((n.ids.countP (Function.update n.flag f.stid false) : Nat) : Int)
    rw [h.count]
    simp at hc
    omega
  by_cases hi : i = f.stid
  · subst hi
    have hi := h.stream f.stid
    have hf : ((n.setRx rx).serve f.stid).flag f.stid = false := Function.update_self ..
    have hw : ((n.setRx rx).serve f.stid).thread f.stid = (n.thread f.stid).signal :=
      Function.update_self ..
    exact {
      known := fun hx => by rw [hf] at hx; cases hx
      empty := fun hx => by rw [hf] at hx; cases hx
      waiting := fun hx => by
        rw [hw] at hx
        cases ht : n.thread f.stid <;> rw [ht] at hx <;> cases hx
      signaled := fun _ => .inl (enqueue_queue_self hq)
      idle := fun _ hx => by rw [hf] at hx; cases hx
      null := fun hx => by
        have := (hi.null hx).1
        rw [hfail] at this
        cases this }
  · exact (h.stream i).congr (List.Subset.refl _) (Function.update_of_ne hi ..)
      (enqueue_queue_of_ne hq hi) (Function.update_of_ne hi ..) rfl rfl

/-! ## Every step -/

theorem Wanted.step (h : Wanted n) {a : NetAct} (hok : Proper n a) (hstep : netStep n a = .ok n') :
    Wanted n' := by
  have running : n.recv ≠ .ended → n.failed = false := h.not_failed
  cases netStep_cases hstep with
  | create _ hn => exact h.create hn
  | want ht hs hq => exact h.want hs hq ht (hok ht)
  | takeNow _ hs hq => exact h.take hs hq
  | giveUp ht hs hq => exact h.giveUp hs hq ht hok
  | takeThen _ hs hq => exact h.take hs hq
  | head hr hl =>
    refine h.loopHead (running fun he => ?_) hl
    rcases hr with hr | hr <;> rw [hr] at he <;> cases he
  | read hr =>
    have hf := running (by rw [hr]; simp)
    exact ⟨h.nodup, h.created, h.count,
      fun i => (h.stream i).congr (List.Subset.refl _) rfl rfl rfl rfl rfl, nofun,
      fun hx => absurd (show n.failed = true from hx) (by simp [hf])⟩
  | fail => exact h.fail
  | look hr =>
    refine h.look (running fun he => ?_) _
    rcases hr with hr | hr <;> rw [hr] at he <;> cases he
  | leave => exact h.goto nofun fun _ => rfl
  | parse hr hp =>
    have hf := running (by rw [hr]; simp)
    have hsame := (handleFrame_same hp).1
    refine (h.setRx hsame.isSome hsame.queue_eq).goto nofun fun hx => ?_
    exact absurd (show n.failed = true from hx) (by simp [hf])
  | serve hr hq hflag _ hl =>
    have hf := running (by rw [hr]; simp)
    exact (h.serve hf (by rw [hr]; simp) hq hflag).loopHead hf hl
  | queue hr hq hflag hl =>
    have hf := running (by rw [hr]; simp)
    exact (h.enqueue hq hflag).loopHead hf hl
  | stop =>
    exact ⟨h.nodup, h.created, h.count,
      fun i => (h.stream i).congr (List.Subset.refl _) rfl rfl rfl rfl rfl, h.reading, h.failed⟩

theorem wanted_start (fatal server : Bool) (wire : List Frame) :
    Wanted (startH2 fatal server wire) where
  nodup := List.nodup_nil
  created id := by simp [startH2]
  count := rfl
  stream id := {
    known := nofun
    empty := fun _ => rfl
    waiting := nofun
    signaled := nofun
    idle := fun _ => nofun
    null := nofun }
  reading := nofun
  failed := nofun

/-! ## The assertions -/

theorem loopHead_ne_assert (h : 0 ≤ n.wf) : loopHead n ≠ .error .assert := by
  unfold loopHead
  split
  · exact check_ne_assert (decide_eq_true h) (by simp)
  · simp

theorem queueParsed_ne_assert (h : Wanted n) (f : Frame) : queueParsed n f ≠ .error .assert := by
  unfold queueParsed
  cases hq : n.rx.enqueue f with
  | error e =>
    intro he
    cases he
    unfold Rx.enqueue WinEnd.stream at hq
    split at hq <;> cases hq
  | ok rx =>
    rw [ok_bind]
    split
    · rename_i hf
      have hpos := h.wf_pos hf
      refine check_ne_assert (decide_eq_true hpos) (loopHead_ne_assert ?_)
      show 0 ≤ n.wf - 1
      omega
    · exact loopHead_ne_assert h.wf_nonneg

/-- No assertion on `hp->wf` fails. -/
theorem Wanted.ne_assert (h : Wanted n) {a : NetAct} (ha : a ≠ .parse) :
    netStep n a ≠ .error .assert := by
  cases a with
  | create id =>
    show createStream n id ≠ _
    unfold createStream
    split <;> simp
  | rxstuff id =>
    show rxstuffEnter n id ≠ _
    unfold rxstuffEnter
    split
    · split
      · exact check_ne_assert (decide_eq_true h.wf_nonneg) (by simp)
      · simp
    · simp
  | wake id =>
    show rxstuffWake n id ≠ _
    unfold rxstuffWake
    split
    · split <;> simp
    · simp
  | start =>
    simp only [netStep]
    split
    · exact loopHead_ne_assert h.wf_nonneg
    · simp
  | rest =>
    simp only [netStep]
    split
    · exact loopHead_ne_assert h.wf_nonneg
    · simp
  | read =>
    simp only [netStep]
    split <;> simp
  | fail =>
    simp only [netStep]
    split <;> simp
  | find =>
    simp only [netStep]
    split <;> simp
  | seek =>
    simp only [netStep]
    split <;> simp
  | parse => exact absurd rfl ha
  | queue =>
    simp only [netStep]
    split
    · exact queueParsed_ne_assert h _
    · simp
  | stop => simp [netStep]

/-! ## Whole runs -/

/-- `hp->wf` is the number of flags that are set, no assertion on it can fail, a frame is read only
while a flag is set, and `rxstuff` has returned NULL only after a read has failed. Parsing a frame
has nothing to do with `hp->wf`. -/
structure Kept (n : Net) : Prop where
  count : n.wf = n.ids.countP n.flag
  asserts : ∀ a, a ≠ .parse → netStep n a ≠ .error .assert
  reading : n.recv = .reading → ∃ id ∈ n.ids, n.flag id = true
  null : ∀ id, n.null id = true → n.failed = true

theorem Wanted.kept (h : Wanted n) : Kept n :=
  ⟨h.count, fun _ ha => h.ne_assert ha, fun hr => h.exists_flag (h.reading hr),
    fun id hn => ((h.stream id).null hn).1⟩

/-- A step that is not proper breaks what is to be kept. -/
theorem Wanted.not_kept (h : Wanted n) {a : NetAct} (hok : ¬Proper n a) :
    ∃ n', netStep n a = .ok n' ∧ ¬Kept n' := by
  cases a with
  | wake id =>
    obtain ⟨ht, hf⟩ := Classical.not_imp.mp hok
    obtain ⟨s, hs, hq⟩ := h.stream_some ((h.stream id).waiting ht)
    refine ⟨n.giveUp id, ?_, fun hk => hf (hk.null id (Function.update_self ..))⟩
    simp only [netStep, rxstuffWake, ht, hs, hq]
  | rxstuff id =>
    obtain ⟨ht, hn⟩ := Classical.not_imp.mp hok
    have hflag := ((h.stream id).null (by simpa using hn)).2
    obtain ⟨s, hs, hq⟩ := h.stream_some hflag
    refine ⟨n.want id, ?_, fun hk => ?_⟩
    · simp only [netStep, rxstuffEnter, ht, hs, hq]
      exact check_bind_eq_ok.mpr ⟨decide_eq_true h.wf_nonneg, rfl⟩
    · -- the flag is set a second time
      have hc : n.wf + 1 = ((n.ids.countP (Function.update n.flag id true) : Nat) : Int) := hk.count
      rw [show Function.update n.flag id true = n.flag from hflag ▸ Function.update_eq_self ..,
        ← h.count] at hc
      omega
  | create | start | rest | read | fail | find | seek | parse | queue | stop =>
    exact absurd trivial hok

end

/-- `hp->wf` is counted right in every state of a run just if every step of the run is proper. -/
theorem wanted_counted_iff (fatal server : Bool) (wire : List Frame) (l : List NetAct) :
    (∀ l1 n, l1 <+: l → run netStep (startH2 fatal server wire) l1 = .ok n → Kept n) ↔
      Along netStep Proper (startH2 fatal server wire) l := by
  have inv : ∀ l1 n, Along netStep Proper (startH2 fatal server wire) l1 →
      run netStep (startH2 fatal server wire) l1 = .ok n → Wanted n := fun l1 n hal hr =>
    run_preserves (fun _ _ _ hi hok hs => hi.step hok hs) l1 _ n (wanted_start ..) hal hr
  induction l using List.reverseRecOn with
  | nil =>
    refine ⟨fun _ => trivial, fun _ l1 n hl hr => ?_⟩
    cases List.prefix_nil.mp hl
    exact (inv [] n trivial hr).kept
  | append_singleton l a ih =>
    rw [Along.snoc_iff]
    constructor
    · intro h
      have hl : ∀ l1 n, l1 <+: l → run netStep (startH2 fatal server wire) l1 = .ok n → Kept n :=
        fun l1 n hp hr => h l1 n (hp.trans (List.prefix_append ..)) hr
      refine ⟨ih.mp hl, fun n hr => ?_⟩
      by_contra hok
      obtain ⟨n', hs, hk⟩ := (inv l n (ih.mp hl) hr).not_kept hok
      refine hk (h (l ++ [a]) n' (List.prefix_refl _) ?_)
      rw [run_append, hr, ok_bind, run_cons, hs]
      rfl
    · rintro ⟨hl, hok⟩ l1 n hp hr
      rcases List.prefix_concat_iff.mp hp with rfl | hp
      · exact (inv _ n ((Along.snoc_iff l a _).mpr ⟨hl, hok⟩) hr).kept
      · exact ih.mpr hl l1 n hp hr

/-- A spurious wakeup: `rxstuff` returns NULL though no read has failed, and a second call counts
the stream twice. -/
theorem spurious_null :
    ∃ n n', run netStep (startH2 true true []) [.create 1, .rxstuff 1, .wake 1] = .ok n ∧
      n.null 1 = true ∧ n.failed = false ∧ netStep n (.rxstuff 1) = .ok n' ∧
      n'.wf = 2 ∧ n'.ids.countP n'.flag = 1 :=
  ⟨_, _, rfl, rfl, rfl, rfl, rfl, rfl⟩

end Http2
end VTest
