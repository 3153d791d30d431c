import VTest.Tunnel.Transfer

/-!
# VTest.Tunnel.Pause

When the assertions of a tunnel hold.

The poll thread expects both buffers to be empty when it finds the tunnel paused behind its reads.
They are, unless the pause came after it had decided to read (`InFlight`). With no such `pause`,
and no other thread that ends a wait of the spec thread, no assertion fails.
-/

namespace VTest
namespace Tunnels

/-- The poll thread is about to read, or has just read. -/
def PollPc.reading : PollPc → Bool
  | .fetch .. | .store .. => true
  | _ => false

/-- The poll thread has read the first lane, or both. -/
def PollPc.gathered : PollPc → Bool
  | .enter .recv | .test => true
  | _ => false

/-- A `read` is going on, or has been made since the last writes, and the state has not been looked
at since. -/
def InFlight (t : Tunnel) : Prop :=
  t.poll.reading = true ∨ t.poll.gathered = true ∧ ∃ d, (t.lane d).bufLen ≠ 0

/-- The buffer of the lane is empty when the poll thread is here. -/
def PollPc.clear (pc : PollPc) (d : Dir) : Bool :=
  match pc with
  | .head | .choose | .acceptWait _ | .sampled _ | .polling | .enter .send => true
  | .enter .recv | .fetch .send _ | .store .send _ => d = .recv
  | .write .recv _ _ => d = .send
  | _ => false

/-- The place has nothing of its own to remember. -/
def PollPc.plain : PollPc → Bool
  | .store .. | .sampled _ => false
  | _ => true

/-- Both ends stay open and nobody but the poll thread ends the wait of a command, and `pause` does
not come while something is in flight. -/
structure Calm (t : Tunnel) (a : Act) : Prop where
  heeded : Heeded t a
  stop : a ≠ .stop
  eof : a ≠ .read []
  pause : a = .lock → t.spec = .checked .pause → ¬InFlight t

/-- What holds where the poll thread is. -/
structure Placed (t : Tunnel) : Prop where
  clear : ∀ d, t.poll.clear d = true → (t.lane d).bufLen = 0
  store : ∀ d res, t.poll = .store d res → 0 < res
  sampled : ∀ s, t.poll = .sampled s → s ≠ .pollDone ∧ s ≠ .stopped
  state : t.state ≠ .pollDone ∧ t.state ≠ .stopped
  drained : t.spec = .waiting .pause false → ¬InFlight t

structure Sound (t : Tunnel) : Prop extends Placed t where
  forward : Forward t
  live : Live t
  steady : Steady t

section

variable {t t' : Tunnel}

theorem clear_signal (pc : PollPc) (d : Dir) : pc.signal.clear d = pc.clear d := by
  cases pc <;> rfl

theorem ne_store_of_plain {pc : PollPc} (h : pc.plain = true) (d : Dir) (res : Nat) :
    pc ≠ .store d res := by
  rintro rfl
  cases h

theorem ne_sampled_of_plain {pc : PollPc} (h : pc.plain = true) (s : State) :
    pc ≠ .sampled s := by
  rintro rfl
  cases h

theorem inFlight_signal (h : InFlight t') (hl : t'.lane = t.lane) (hp : t'.poll = t.poll.signal) :
    InFlight t := by
  unfold InFlight at h ⊢
  rw [hl, hp] at h
  cases hpc : t.poll <;> rw [hpc] at h <;> exact h

/-- The thread is at a place where nothing is in flight. -/
theorem not_inFlight (hr : t.poll.reading = false) (hg : t.poll.gathered = false) :
    ¬InFlight t := by
  rintro (h | h)
  · rw [hr] at h
    cases h
  · rw [hg] at h
    cases h.1

/-! ## Staying open -/

theorem Sound.live_step (h : Sound t) {a : Act} (hok : Calm t a)
    (hstep : step t a = .ok t') : Live t' := by
  have hl := h.live
  cases step_cases hstep with
  | accept => exact ⟨hl.running, fun _ => Int.le_refl 0⟩
  | @transfer d len =>
    exact hl.congr rfl (setLane_field Lane.bufLen rfl)
  | @read d len data =>
    exact hl.congr rfl (setLane_field Lane.bufLen rfl)
  | @store d res hp =>
    refine ⟨hl.running, fun e => ?_⟩
    by_cases hed : e = d
    · subst hed
      have := h.store e res hp
      simp [Tunnel.stored, Tunnel.goto, Nat.pos_iff_ne_zero.mp this]
    · simpa [Tunnel.stored, Tunnel.goto, setLane_of_ne _ hed] using hl.isOpen e
  | @write d p k l =>
    exact hl.congr rfl (setLane_field Lane.bufLen rfl)
  | @commit d p l lane hp hle hc =>
    have hlanes : ((t.setLane d lane).next d).lane = (t.setLane d lane).lane := by
      cases d <;> rfl
    refine ⟨by cases d <;> exact hl.running, fun e => ?_⟩
    rw [hlanes]
    by_cases hed : e = d
    · subst hed
      rw [setLane_self, (settle_eq_ok hc).2.1]
      exact (h.forward.write e p l hp).mp (hl.isOpen e)
    · rw [setLane_of_ne _ hed]
      exact hl.isOpen e
  | ending hp =>
    have := h.steady.loop
    rw [hp] at this
    cases this
  | @tunnelWait th => cases th <;> exact ⟨hl.running, hl.isOpen⟩
  | @spurious th => cases th <;> exact ⟨hl.running, hl.isOpen⟩
  | stop => exact absurd rfl hok.stop
  | begin | start | refuse | pause | resume | specWake | finish | opened | closed | acceptWait
  | sample | stopped | poll | polled | skip | enter | signal | pass | testWake | resumed | endWait
  | closing => exact ⟨hl.running, hl.isOpen⟩

/-! ## Places -/

/-- A step of the spec thread. -/
theorem Sound.placed_spec (h : Sound t) (hl : ∀ d, (t'.lane d).bufLen = (t.lane d).bufLen)
    (hp : t'.poll = t.poll ∨ t'.poll = t.poll.signal)
    (hst : t'.state ≠ .pollDone ∧ t'.state ≠ .stopped)
    (hd : t'.spec = .waiting .pause false → ¬InFlight t') : Placed t' where
  clear d hc := by
    rw [hl]
    rcases hp with hp | hp
    · exact h.clear d (hp ▸ hc)
    · rw [hp, clear_signal] at hc
      exact h.clear d hc
  store d res hpc := by
    rcases hp with hp | hp
    · exact h.store d res (hp ▸ hpc)
    · exact h.store d res (eq_of_signal_eq (hp.symm.trans hpc) rfl)
  sampled s hpc := by
    rcases hp with hp | hp
    · exact h.sampled s (hp ▸ hpc)
    · refine h.sampled s ?_
      rw [hp] at hpc
      cases hq : t.poll <;> rw [hq] at hpc <;> cases hpc
      rfl
  state := hst
  drained := hd

/-- A step of the poll thread to a plain place. -/
theorem Sound.placed_plain (h : Sound t) (hpl : t'.poll.plain = true)
    (hc : ∀ d, t'.poll.clear d = true → (t'.lane d).bufLen = 0) (hst : t'.state = t.state)
    (hd : t'.spec = .waiting .pause false → ¬InFlight t') : Placed t' where
  clear := hc
  store d res hpc := absurd hpc (ne_store_of_plain hpl d res)
  sampled s hpc := absurd hpc (ne_sampled_of_plain hpl s)
  state := hst ▸ h.state
  drained := hd

/-- The poll thread goes on, and the lanes are as they were. -/
theorem Sound.placed_goto (h : Sound t) {pc : PollPc} (hpl : pc.plain = true)
    (hc : ∀ d, pc.clear d = true → (t.lane d).bufLen = 0)
    (hd : t.spec = .waiting .pause false → ¬InFlight (t.goto pc)) : Placed (t.goto pc) :=
  h.placed_plain hpl hc rfl hd

/-- A thread that waits for `pause` to be over has set the state, and no command is at work. -/
theorem Sound.pausing (h : Sound t) (hs : t.spec = .waiting .pause false) :
    t.state = .paused ∧ Idle t := by
  cases h.steady.phase with
  | pausing _ hst hi => exact ⟨hst, hi⟩
  | accepting hs' => rcases hs' with hs' | hs' <;> cases hs.symm.trans hs'
  | running hs' | paused hs' => rcases hs' with hs' | ⟨_, hs'⟩ <;> cases hs.symm.trans hs'
  | pauseDone hs' | moving hs' | moved hs' | ended hs' => cases hs.symm.trans hs'

theorem Sound.placed_skip (h : Sound t) {d : Dir} (hp : t.poll = .enter d) :
    Placed (t.goto (.after d)) := by
  cases d with
  | send =>
    have hb : ∀ e, (t.lane e).bufLen = 0 := fun e => h.clear e (by rw [hp]; rfl)
    refine h.placed_goto rfl (fun e _ => hb e) fun _ hf => ?_
    rcases hf with hf | ⟨-, e, he⟩
    · cases hf
    · exact he (hb e)
  | recv =>
    refine h.placed_goto rfl (fun _ hc => by cases hc) fun hs hf => h.drained hs ?_
    rcases hf with hf | ⟨-, hf⟩
    · cases hf
    · exact .inr ⟨by rw [hp]; rfl, hf⟩

theorem Sound.placed_fetched (h : Sound t) {d : Dir} {len : Nat} {data : Bytes}
    (hp : t.poll = .fetch d len) (hdata : data ≠ []) : Placed (t.fetched d data) := by
  refine ⟨fun e hc => ?_, fun e res hpc => ?_, fun _ hpc => (by cases hpc), h.state,
    fun hs => ?_⟩
  · have hed : e ≠ d := by
      rintro rfl
      cases e <;> cases hc
    rw [show (t.fetched d data).lane e = t.lane e from setLane_of_ne _ hed _]
    refine h.clear e ?_
    rw [hp]
    cases d with
    | send => exact hc
    | recv => cases hc
  · cases hpc
    exact List.length_pos_iff.mpr hdata
  · exact absurd (.inl (by rw [hp]; rfl)) (h.drained hs)

theorem Sound.placed_stored (h : Sound t) {d : Dir} {res : Nat} (hp : t.poll = .store d res) :
    Placed (t.stored d res) := by
  refine h.placed_plain (by cases d <;> rfl) (fun e hc => ?_) rfl fun hs => ?_
  · cases d with
    | send =>
      cases of_decide_eq_true hc
      exact h.clear .recv (by rw [hp]; rfl)
    | recv => cases hc
  · exact absurd (.inl (by rw [hp]; rfl)) (h.drained hs)

/-- Behind a write the buffer of the lane is empty. -/
theorem Sound.placed_commit (h : Sound t) {d : Dir} {p : Nat} {l : Int} {lane : Lane}
    (hp : t.poll = .write d p l) (hl : l ≤ 0) (hc : (t.lane d).settle l = .ok lane) :
    Placed ((t.setLane d lane).next d) := by
  have hlen : lane.bufLen = 0 := by
    rw [(settle_eq_ok hc).2.1]
    have := (h.forward.write d p l hp).mp (h.live.isOpen d)
    omega
  cases d with
  | send =>
    refine h.placed_plain rfl (fun e hcl => ?_) rfl fun _ => not_inFlight rfl rfl
    cases of_decide_eq_true hcl
    exact hlen
  | recv =>
    refine h.placed_plain rfl (fun e _ => ?_) rfl fun _ => not_inFlight rfl rfl
    cases e with
    | send => exact h.clear .send (by rw [hp]; rfl)
    | recv => exact hlen

theorem Sound.placed_wrote (h : Sound t) {d : Dir} {p k : Nat} {l : Int}
    (hp : t.poll = .write d p l) : Placed (t.wrote d p l k) := by
  refine h.placed_plain rfl (fun e hc => ?_) rfl fun _ => not_inFlight rfl rfl
  cases d with
  | send => cases hc
  | recv =>
    cases of_decide_eq_true hc
    exact h.clear .send (by rw [hp]; rfl)

theorem Sound.placed_wake (h : Sound t) (th : Thread) : Placed (t.wake th) := by
  cases th with
  | spec =>
    refine h.placed_spec (fun _ => rfl) (.inl rfl) h.state fun hs => ?_
    have hs : t.spec.signal = .waiting .pause false := hs
    cases hq : t.spec <;> rw [hq] at hs <;> cases hs
  | poll =>
    refine h.placed_spec (fun _ => rfl) (.inr rfl) h.state fun hs hf => h.drained hs ?_
    exact inFlight_signal hf rfl rfl

theorem Sound.placed_step (h : Sound t) {a : Act} (hok : Calm t a)
    (hstep : step t a = .ok t') : Placed t' := by
  have behind : ∀ {pc : PollPc}, t.poll = pc → pc.over = true → Placed t' := fun hp ho => by
    have := h.steady.loop
    rw [hp, ho] at this
    cases this
  have empty : ∀ {pc : PollPc}, t.poll = pc → (∀ d, pc.clear d = true) →
      ∀ d, (t.lane d).bufLen = 0 := fun hp hc d => h.clear d (hp ▸ hc d)
  have still : ∀ {pc : PollPc}, pc.reading = false → pc.gathered = false →
      t.spec = .waiting .pause false → ¬InFlight (t.goto pc) :=
    fun hr hg _ => not_inFlight hr hg
  cases step_cases hstep with
  | begin => exact h.placed_spec (fun _ => rfl) (.inl rfl) h.state fun hs => by cases hs
  | accept hs =>
    refine h.placed_spec (fun d => ((h.forward.early (.inr hs)).lanes d).symm) (.inr rfl) ?_
      fun hs => by cases hs
    simp only [Tunnel.accept]
    split <;> simp
  | start => exact h.placed_spec (fun _ => rfl) (.inl rfl) h.state fun hs => by cases hs
  | refuse => exact h.placed_spec (fun _ => rfl) (.inl rfl) h.state fun hs => by cases hs
  | pause hs =>
    refine h.placed_spec (fun _ => rfl) (.inr rfl) ⟨fun h => (by cases h), fun h => (by cases h)⟩
      fun _ hf => ?_
    exact hok.pause rfl hs (inFlight_signal hf rfl rfl)
  | @transfer d len =>
    exact h.placed_spec (setLane_field Lane.bufLen rfl) (.inr rfl) h.state fun hs => by cases hs
  | resume =>
    exact h.placed_spec (fun _ => rfl) (.inr rfl) ⟨fun h => (by cases h), fun h => (by cases h)⟩
      fun hs => by cases hs
  | specWake => exact h.placed_spec (fun _ => rfl) (.inl rfl) h.state fun hs => by cases hs
  | finish =>
    exact h.placed_spec (fun _ => rfl) (.inr rfl) ⟨fun h => (by cases h), fun h => (by cases h)⟩
      fun hs => by cases hs
  | opened hp =>
    exact h.placed_goto rfl (fun d _ => empty hp (fun _ => rfl) d) (still rfl rfl)
  | closed hp ho =>
    rcases ho with ho | ho
    · rw [tunnelIsOpen_iff.mpr h.live.isOpen] at ho
      cases ho
    · rw [h.live.running] at ho
      cases ho
  | acceptWait hp =>
    have hb : ∀ d, (t.lane d).bufLen = 0 := by
      rcases hp with hp | hp <;> exact empty hp fun _ => rfl
    exact h.placed_goto rfl (fun d _ => hb d) (still rfl rfl)
  | sample hp =>
    have hb : ∀ d, (t.lane d).bufLen = 0 := by
      rcases hp with hp | hp <;> exact empty hp fun _ => rfl
    refine ⟨fun d _ => hb d, fun _ _ hpc => (by cases hpc), fun s hpc => ?_, h.state, still rfl rfl⟩
    cases hpc
    exact h.state
  | stopped _ hv =>
    rw [h.live.running] at hv
    cases hv
  | poll hp =>
    exact h.placed_goto rfl (fun d _ => empty hp (fun _ => rfl) d) (still rfl rfl)
  | polled hp =>
    exact h.placed_plain rfl (fun d _ => empty hp (fun _ => rfl) d) rfl
      fun _ => not_inFlight rfl rfl
  | skip hp => exact h.placed_skip hp
  | @enter d hp hb hw =>
    refine h.placed_goto rfl (fun e hc => ?_) fun hs => ?_
    · cases d with
      | send =>
        cases of_decide_eq_true hc
        exact h.clear .recv (by rw [hp]; rfl)
      | recv => cases hc
    · obtain ⟨hst, hi⟩ := h.pausing hs
      exact absurd hst (hw (hi d))
  | @read d len data hp hdata =>
    exact h.placed_fetched hp fun he => hok.eof (by rw [he])
  | store hp => exact h.placed_stored hp
  | signal hp =>
    exact h.placed_plain rfl (fun _ hc => by cases hc) rfl fun _ => not_inFlight rfl rfl
  | pass => exact h.placed_goto rfl (fun _ hc => by cases hc) (still rfl rfl)
  | testWake => exact h.placed_goto rfl (fun _ hc => by cases hc) (still rfl rfl)
  | resumed hp => exact h.placed_goto rfl (fun _ hc => by cases hc) (still rfl rfl)
  | write hp => exact h.placed_wrote hp
  | commit hp hl hc => exact h.placed_commit hp hl hc
  | ending hp => exact behind hp rfl
  | endWait hp => exact behind hp rfl
  | closing hp => exact behind hp rfl
  | @tunnelWait th => exact h.placed_wake th
  | @spurious th => exact h.placed_wake th
  | stop => exact absurd rfl hok.stop

theorem Sound.step (h : Sound t) {a : Act} (hok : Calm t a) (hstep : Tunnels.step t a = .ok t') :
    Sound t' := by
  have hl := h.live_step hok hstep
  exact {
    toPlaced := h.placed_step hok hstep
    forward := h.forward.step hstep
    live := hl
    steady := h.steady.step h.forward hok.heeded hstep h.live hl }

/-! ## The assertions -/

/-- No command moves more than it was asked to. -/
theorem Phase.bufLen_le (h : Phase t) {d : Dir} (hw : 0 < (t.lane d).wrkLen) :
    (t.lane d).bufLen ≤ (t.lane d).wrkLen := by
  have idle : ∀ {P : Prop}, (t.lane d).wrkLen = 0 → P := fun h0 => by omega
  cases h with
  | accepting _ hi => exact idle (hi d)
  | running _ _ hi => exact idle (hi d)
  | paused _ _ hq _ => exact idle (hq d).wrkLen
  | pausing _ _ hi => exact idle (hi d)
  | pauseDone _ _ hq => exact idle (hq d).wrkLen
  | @moving e n _ _ ho hq =>
    by_cases hed : d = e
    · subst hed
      exact ho.le
    · exact idle (hq d hed).1.wrkLen
  | moved _ _ hq _ _ => exact idle (hq d).wrkLen
  | ended _ _ hi => exact idle (hi d)

/-- The buffers are empty when the poll thread finds the tunnel paused with nothing to do. -/
theorem Sound.empty_of_test (h : Sound t) (hp : t.poll = .test) (hst : t.state = .paused)
    (hi : Idle t) (d : Dir) : (t.lane d).bufLen = 0 := by
  cases h.steady.phase with
  | accepting hs => exact absurd hs (h.forward.not_accepting hp rfl)
  | running _ hst' =>
    rw [hst] at hst'
    cases hst'
  | paused _ _ hq _ => exact (hq d).bufLen
  | pausing hs _ _ =>
    by_contra hne
    exact h.drained hs (.inr ⟨by rw [hp]; rfl, d, hne⟩)
  | pauseDone _ _ hq => exact (hq d).bufLen
  | @moving e n _ _ ho hq =>
    by_cases hed : d = e
    · subst hed
      have h1 := ho.le
      have h2 := h.live.isOpen d
      rw [hi d] at h1
      omega
    · exact (hq d hed).1.bufLen
  | moved _ _ hq _ _ => exact (hq d).bufLen
  | ended _ hq _ => exact (hq hst d).bufLen

theorem Sound.lock_ne_assert (h : Sound t) : Tunnels.step t .lock ≠ .error .assert := by
  simp only [Tunnels.step]
  split
  · rename_i hs
    have hr := (h.steady.phase.at_rest (.inr ⟨_, hs⟩)).2
    unfold cmdTunnelPause
    split
    · simp
    · rename_i hne
      refine check_ne_assert (decide_eq_true (hr.resolve_right fun hp => hne hp.1)) (by simp)
  · rename_i d len hs
    obtain ⟨hi, hr⟩ := h.steady.phase.at_rest (.inr ⟨_, hs⟩)
    unfold cmdTunnelSend
    split
    · simp
    · rename_i hne
      refine check_ne_assert (decide_eq_true (hr.resolve_left hne).1) ?_
      refine check_ne_assert (decide_eq_true (hi .send)) ?_
      exact check_ne_assert (decide_eq_true (hi .recv)) (by simp)
  · rename_i hs
    have hr := (h.steady.phase.at_rest (.inr ⟨_, hs⟩)).2
    unfold cmdTunnelResume
    split
    · simp
    · rename_i hne
      exact check_ne_assert (decide_eq_true (hr.resolve_left hne).1) (by simp)
  · simp

theorem Sound.settle_ne_assert (h : Sound t) (d : Dir) (l : Int) :
    (t.lane d).settle l ≠ .error .assert := by
  unfold Lane.settle
  split
  · rename_i hc
    refine check_ne_assert (decide_eq_true (h.live.isOpen d)) ?_
    exact check_ne_assert (decide_eq_true (h.steady.phase.bufLen_le hc.1)) (by simp)
  · simp

theorem Sound.pollStep_ne_assert (h : Sound t) : pollStep t ≠ .error .assert := by
  unfold pollStep
  split
  · simp
  · simp
  · simp
  · rename_i s hp
    split
    · simp
    · exact check_ne_assert (decide_eq_true (h.sampled s hp)) (by simp)
  · rename_i d hp
    unfold tunnelRead
    have hb : (t.lane d).bufLen = 0 := h.clear d (by rw [hp]; cases d <;> rfl)
    split
    · refine check_ne_assert (decide_eq_true hb) ?_
      split <;> simp
    · simp
  · simp
  · rename_i hp
    unfold testPaused
    split
    · rename_i hc
      have hb := h.empty_of_test hp hc.1 (forall_dir hc.2.1 hc.2.2)
      refine check_ne_assert (decide_eq_true (hb .send)) ?_
      exact check_ne_assert (decide_eq_true (hb .recv)) (by simp)
    · simp
  · simp
  · simp
  · rename_i d p l hp
    split
    · unfold commit
      cases hc : (t.lane d).settle l with
      | ok lane => simp
      | error e =>
        intro he
        cases he
        exact h.settle_ne_assert d l hc
    · simp
  all_goals simp

theorem Sound.ne_assert (h : Sound t) (a : Act) : Tunnels.step t a ≠ .error .assert := by
  cases a with
  | begin =>
    simp only [Tunnels.step]
    split
    · rename_i hs
      have hd : t.poll ≠ .done := fun hp => by
        have := h.steady.loop
        rw [hp] at this
        cases this
      exact check_ne_assert (decide_eq_true ((h.forward.early (.inl hs)).state hd)) (by simp)
    · simp
  | lock => exact h.lock_ne_assert
  | pollStep => exact h.pollStep_ne_assert
  | read data | write k =>
    simp only [Tunnels.step]
    split
    · split <;> simp
    · simp
  | tunnelWait th =>
    simp only [Tunnels.step]
    split <;> simp
  | spurious | stop => simp [Tunnels.step]
  | accept | start | specWake | finish | polled =>
    simp only [Tunnels.step]
    split <;> simp

end

/-! ## Whole runs -/

theorem sound_start (startPaused : Bool) : Sound (tunnelStart startPaused) where
  forward := forward_start startPaused
  live := ⟨rfl, fun _ => Int.le_refl 0⟩
  steady := steady_start startPaused
  clear _ _ := rfl
  store _ _ hp := by cases hp
  sampled _ hp := by cases hp
  state := ⟨fun h => (by cases h), fun h => (by cases h)⟩
  drained hs := by cases hs

/-- A tunnel is paused before it has read anything. -/
def pauseEarly : List Act := [.begin, .accept, .start .pause, .lock]

end Tunnels
end VTest
