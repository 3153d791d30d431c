import VTest.Tunnel.Machine

/-!
# VTest.Tunnel.Forward

A tunnel forwards what it reads: in each lane the bytes that were read are those that were written
and then those that the poll thread has in hand (`Forward`). Which these are depends on where the
thread is: the content of the buffer, or its first bytes right behind a `read`, or what is left of
it within the loop of `tunnel_write`.
-/

namespace VTest
namespace Tunnels

/-! ## What the poll thread has in hand -/

/-- The bytes that `buf_len` says are in the buffer. -/
def Lane.held (lane : Lane) : Bytes := lane.buf.take lane.bufLen.toNat

/-- The bytes of a lane that were read and not yet written. -/
def PollPc.inHand (pc : PollPc) (d : Dir) (lane : Lane) : Bytes :=
  match pc with
  | .store e res => if e = d then lane.buf.take res else lane.held
  | .write e p l => if e = d then (lane.buf.drop p).take l.toNat else lane.held
  | _ => lane.held

/-- `tunnel_read` or `tunnel_write` is in the middle of handling the lane. -/
def PollPc.handles (pc : PollPc) (d : Dir) : Bool :=
  match pc with
  | .fetch e _ | .store e _ | .write e _ _ => e = d
  | _ => false

/-- Neither of them is handling a lane. -/
def PollPc.between : PollPc → Bool
  | .fetch .. | .store .. | .write .. => false
  | _ => true

/-- Where the poll thread can be as long as nothing is connected. -/
def PollPc.early : PollPc → Bool
  | .head | .choose | .acceptWait _ | .sampled _ | .ending | .endWait _ | .closing | .done => true
  | _ => false

theorem inHand_of_not_handles {pc : PollPc} {d : Dir} (h : pc.handles d = false) (lane : Lane) :
    pc.inHand d lane = lane.held := by
  cases pc with
  | store e res => exact if_neg (of_decide_eq_false h)
  | write e p l => exact if_neg (of_decide_eq_false h)
  | _ => rfl

theorem not_handles_of_between {pc : PollPc} (h : pc.between = true) (d : Dir) :
    pc.handles d = false := by
  cases pc with
  | fetch | store | write => cases h
  | _ => rfl

theorem inHand_of_between {pc : PollPc} (h : pc.between = true) (d : Dir) (lane : Lane) :
    pc.inHand d lane = lane.held :=
  inHand_of_not_handles (not_handles_of_between h d) lane

theorem between_of_early {pc : PollPc} (h : pc.early = true) : pc.between = true := by
  cases pc with
  | fetch | store | write => cases h
  | _ => rfl

theorem between_after (d : Dir) : (PollPc.after d).between = true := by
  cases d <;> rfl

/-- A signal does not move a thread that handles a lane. -/
theorem signal_eq_self {pc : PollPc} (h : pc.blocked = false) : pc.signal = pc := by
  cases pc with
  | acceptWait woken | testWait woken | endWait woken =>
    cases woken with
    | true => rfl
    | false => cases h
  | _ => rfl

theorem between_of_blocked {pc : PollPc} (h : pc.blocked = true) : pc.between = true := by
  cases pc with
  | fetch | store | write => cases h
  | _ => rfl

theorem between_signal (pc : PollPc) : pc.signal.between = pc.between := by
  cases pc <;> rfl

theorem early_signal (pc : PollPc) : pc.signal.early = pc.early := by
  cases pc <;> rfl

/-! ## The invariant -/

/-- Nothing is connected yet. -/
structure Early (t : Tunnel) : Prop where
  lanes : ∀ d, (t.lane d).bufLen = 0
  pc : t.poll.early = true
  sampled : ∀ s, t.poll = .sampled s → t.vtcStop = true
  state : t.poll ≠ .done → t.state = .accept

/-- The spec thread has not accepted a connection. -/
def Tunnel.accepting (t : Tunnel) : Prop := t.spec = .started ∨ t.spec = .accepting

structure Forward (t : Tunnel) : Prop where
  bytes : ∀ d, (t.lane d).read = (t.lane d).written ++ t.poll.inHand d (t.lane d)
  fetch : ∀ d len, t.poll = .fetch d len → (t.lane d).bufLen = 0
  store : ∀ d res, t.poll = .store d res → (t.lane d).bufLen = 0
  write : ∀ d p l, t.poll = .write d p l → (0 ≤ (t.lane d).bufLen ↔ 0 ≤ l)
  early : t.accepting → Early t

section

variable {t t' : Tunnel}

@[simp] theorem setLane_self (t : Tunnel) (d : Dir) (x : Lane) : (t.setLane d x).lane d = x :=
  Function.update_self ..

theorem setLane_of_ne (t : Tunnel) {d e : Dir} (h : e ≠ d) (x : Lane) :
    (t.setLane d x).lane e = t.lane e :=
  Function.update_of_ne h ..

/-- A field that the new lane has from the old one is unchanged in both lanes. -/
theorem setLane_field {α : Type} (f : Lane → α) {t : Tunnel} {d : Dir} {x : Lane}
    (h : f x = f (t.lane d)) (e : Dir) : f ((t.setLane d x).lane e) = f (t.lane e) := by
  by_cases hed : e = d
  · subst hed
    rw [setLane_self, h]
  · rw [setLane_of_ne t hed]

/-- A connection is there if the poll thread is where it cannot be before. -/
theorem Forward.not_accepting (h : Forward t) {pc : PollPc} (hp : t.poll = pc)
    (hl : pc.early = false) : ¬t.accepting := fun ha => by
  have := (h.early ha).pc
  rw [hp, hl] at this
  cases this

/-- The thread goes from one place between the lanes to another. -/
theorem Forward.goto (h : Forward t) {pc : PollPc} (hb : t.poll.between = true)
    (hb' : pc.between = true) (he : t.accepting → Early (t.goto pc)) : Forward (t.goto pc) where
  bytes d := by
    have := h.bytes d
    rw [inHand_of_between hb] at this
    show (t.lane d).read = (t.lane d).written ++ pc.inHand d (t.lane d)
    rw [inHand_of_between hb', this]
  fetch d len hp := by
    rw [show pc = .fetch d len from hp] at hb'
    cases hb'
  store d res hp := by
    rw [show pc = .store d res from hp] at hb'
    cases hb'
  write d p l hp := by
    rw [show pc = .write d p l from hp] at hb'
    cases hb'
  early := he

/-- The same when a connection is there. -/
theorem Forward.goto_late (h : Forward t) {pc pc' : PollPc} (hp : t.poll = pc)
    (hb : pc.between = true) (hl : pc.early = false) (hb' : pc'.between = true) :
    Forward (t.goto pc') :=
  h.goto (hp ▸ hb) hb' fun ha => absurd ha (h.not_accepting hp hl)

/-- The same when there may be none. -/
theorem Forward.goto_early (h : Forward t) {pc pc' : PollPc} (hp : t.poll = pc)
    (hb : pc.between = true) (hd : pc ≠ .done) (he' : pc'.early = true)
    (hs : t.accepting → ∀ s, pc' = .sampled s → t.vtcStop = true) : Forward (t.goto pc') :=
  h.goto (hp ▸ hb) (between_of_early he') fun ha =>
    have he := h.early ha
    ⟨he.lanes, he', hs ha, fun _ => he.state (hp ▸ hd)⟩

/-- What the spec thread does to the other things: the lanes keep their bytes, and the poll thread
may be signaled. -/
theorem Forward.congr (h : Forward t) (hlane : ∀ d, (t'.lane d).buf = (t.lane d).buf ∧
      (t'.lane d).bufLen = (t.lane d).bufLen ∧ (t'.lane d).read = (t.lane d).read ∧
      (t'.lane d).written = (t.lane d).written)
    (hp : t'.poll = t.poll ∨ t'.poll = t.poll.signal) (he : t'.accepting → Early t') :
    Forward t' := by
  have held : ∀ d, (t'.lane d).held = (t.lane d).held := fun d => by
    rw [Lane.held, Lane.held, (hlane d).1, (hlane d).2.1]
  cases hbl : t.poll.blocked with
  | true =>
    -- a thread that waits is between the lanes, before and after
    have hb := between_of_blocked hbl
    have hb' : t'.poll.between = true := by
      rcases hp with hp | hp
      · rw [hp, hb]
      · rw [hp, between_signal, hb]
    refine ⟨fun d => ?_, fun d len hp => ?_, fun d res hp => ?_, fun d p l hp => ?_, he⟩
    · rw [inHand_of_between hb', held, (hlane d).2.2.1, (hlane d).2.2.2, h.bytes,
        inHand_of_between hb]
    all_goals
      rw [hp] at hb'
      cases hb'
  | false =>
    have hpc : t'.poll = t.poll := by
      rcases hp with hp | hp
      · exact hp
      · rw [hp, signal_eq_self hbl]
    refine ⟨fun d => ?_, fun d len hp => ?_, fun d res hp => ?_, fun d p l hp => ?_, he⟩
    · have hin : t'.poll.inHand d (t'.lane d) = t.poll.inHand d (t.lane d) := by
        rw [hpc]
        cases t.poll <;> simp only [PollPc.inHand, held, (hlane d).1]
      rw [hin, (hlane d).2.2.1, (hlane d).2.2.2, h.bytes]
    · rw [(hlane d).2.1]
      exact h.fetch d len (hpc ▸ hp)
    · rw [(hlane d).2.1]
      exact h.store d res (hpc ▸ hp)
    · rw [(hlane d).2.1]
      exact h.write d p l (hpc ▸ hp)

theorem Forward.wake (h : Forward t) (th : Thread) : Forward (t.wake th) := by
  cases th with
  | spec =>
    refine h.congr (fun _ => ⟨rfl, rfl, rfl, rfl⟩) (.inl rfl) fun ha => ?_
    have ha' : t.accepting := by
      unfold Tunnel.accepting at ha ⊢
      cases hs : t.spec <;> simp_all [Tunnel.wake, SpecPc.signal]
    exact ⟨(h.early ha').lanes, (h.early ha').pc, (h.early ha').sampled, (h.early ha').state⟩
  | poll =>
    refine h.congr (fun _ => ⟨rfl, rfl, rfl, rfl⟩) (.inr rfl) fun ha => ?_
    have he := h.early ha
    refine ⟨he.lanes, (early_signal _).trans he.pc, fun s hs => he.sampled s ?_, fun hd => ?_⟩
    · have hs : t.poll.signal = .sampled s := hs
      cases hp : t.poll <;> rw [hp] at hs <;> cases hs
      rfl
    · refine he.state fun hp => hd ?_
      show t.poll.signal = .done
      rw [hp]
      rfl

theorem Forward.accept (h : Forward t) (hs : t.spec = .accepting) : Forward t.accept := by
  have he := h.early (.inr hs)
  refine h.congr (fun d => ⟨rfl, (he.lanes d).symm, rfl, rfl⟩) (.inr rfl) fun ha => ?_
  rcases ha with ha | ha <;> cases ha

/-! ## The lanes -/

/-- `read` puts the bytes where `buf_len` will say they are. -/
theorem Forward.fetched (h : Forward t) {d : Dir} {len : Nat} (hp : t.poll = .fetch d len)
    (data : Bytes) : Forward (t.fetched d data) := by
  have h0 := h.fetch d len hp
  have hlate := h.not_accepting hp rfl
  refine ⟨fun e => ?_, nofun, fun e res he => ?_, nofun, fun ha => absurd ha hlate⟩
  · have hb := h.bytes e
    have hh : t.poll.inHand e (t.lane e) = (t.lane e).held := by rw [hp]; rfl
    rw [hh] at hb
    by_cases hed : e = d
    · subst hed
      have hheld : (t.lane e).held = [] := by rw [Lane.held, h0]; rfl
      rw [hheld, List.append_nil] at hb
      simp only [Tunnel.fetched, Tunnel.goto, setLane_self, PollPc.inHand, if_true, put, hb]
      simp
    · have hde : d ≠ e := Ne.symm hed
      simp only [Tunnel.fetched, Tunnel.goto, PollPc.inHand, if_neg hde, setLane_of_ne _ hed]
      exact hb
  · cases he
    simp only [Tunnel.fetched, Tunnel.goto, setLane_self, h0]

theorem Forward.stored (h : Forward t) {d : Dir} {res : Nat} (hp : t.poll = .store d res) :
    Forward (t.stored d res) := by
  have hlate := h.not_accepting hp rfl
  have hb' : (t.stored d res).poll.between = true := between_after d
  refine ⟨fun e => ?_, fun e len he => ?_, fun e r he => ?_, fun e p l he => ?_,
    fun ha => absurd ha hlate⟩
  · rw [inHand_of_between hb']
    have hb := h.bytes e
    rw [hp] at hb
    by_cases hed : e = d
    · subst hed
      simp only [PollPc.inHand, if_true] at hb
      simp only [Tunnel.stored, Tunnel.goto, setLane_self, Lane.held]
      by_cases hr : res = 0
      · simpa [hr] using hb
      · simpa [hr] using hb
    · have hde : d ≠ e := Ne.symm hed
      simp only [PollPc.inHand, if_neg hde] at hb
      simp only [Tunnel.stored, Tunnel.goto, setLane_of_ne _ hed]
      exact hb
  all_goals
    rw [he] at hb'
    cases hb'

/-- A part of the buffer is written. -/
theorem Forward.wrote (h : Forward t) {d : Dir} {p k : Nat} {l : Int} (hp : t.poll = .write d p l)
    (h0 : 0 < k) (hk : k ≤ l) : Forward (t.wrote d p l k) := by
  have hlate := h.not_accepting hp rfl
  refine ⟨fun e => ?_, nofun, nofun, fun e p' l' he => ?_, fun ha => absurd ha hlate⟩
  · have hb := h.bytes e
    rw [hp] at hb
    by_cases hed : e = d
    · subst hed
      simp only [PollPc.inHand, if_true] at hb
      simp only [Tunnel.wrote, Tunnel.goto, setLane_self, PollPc.inHand, if_true, hb,
        List.append_assoc, ← List.drop_drop]
      have hsplit : l.toNat = k + (l - k).toNat := by omega
      rw [hsplit, List.take_add]
    · have hde : d ≠ e := Ne.symm hed
      simp only [PollPc.inHand, if_neg hde] at hb
      simp only [Tunnel.wrote, Tunnel.goto, PollPc.inHand, if_neg hde, setLane_of_ne _ hed]
      exact hb
  · cases he
    have := h.write d p l hp
    simp only [Tunnel.wrote, Tunnel.goto, setLane_self]
    omega

theorem settle_eq_ok {x lane : Lane} {l : Int} (h : x.settle l = .ok lane) :
    lane.buf = x.buf ∧ lane.bufLen = l ∧ lane.read = x.read ∧ lane.written = x.written ∧
      (x.wrkLen = 0 → lane.wrkLen = 0) ∧
      (0 < x.wrkLen → x.bufLen ≠ -1 → 0 ≤ x.bufLen ∧ x.bufLen ≤ x.wrkLen ∧
        lane.wrkLen = x.wrkLen - x.bufLen.toNat) := by
  unfold Lane.settle at h
  split at h
  · rename_i hc
    obtain ⟨h1, h⟩ := check_bind_eq_ok.mp h
    obtain ⟨h2, h⟩ := check_bind_eq_ok.mp h
    cases h
    exact ⟨rfl, rfl, rfl, rfl, fun h0 => by omega,
      fun _ _ => ⟨of_decide_eq_true h1, of_decide_eq_true h2, rfl⟩⟩
  · rename_i hc
    cases h
    exact ⟨rfl, rfl, rfl, rfl, fun h0 => h0, fun h0 hne => absurd ⟨h0, hne⟩ hc⟩

/-- The thread starts to write a lane. -/
theorem Forward.startWrite (h : Forward t) (d : Dir) (hp : t.poll = .resumed) :
    Forward (t.goto (.write d 0 (t.lane d).bufLen)) where
  bytes e := by
    have := h.bytes e
    rw [hp] at this
    by_cases hde : d = e
    · subst hde
      simpa only [Tunnel.goto, PollPc.inHand, if_true, List.drop_zero, Lane.held] using this
    · simpa only [Tunnel.goto, PollPc.inHand, if_neg hde] using this
  fetch := nofun
  store := nofun
  write e p l he := by
    cases he
    exact Iff.rfl
  early ha := absurd ha (h.not_accepting hp rfl)

/-- Everything is written when `tunnel_write` leaves a lane. -/
theorem Forward.commit (h : Forward t) {d : Dir} {p : Nat} {l : Int} {lane : Lane}
    (hp : t.poll = .write d p l) (hl : l ≤ 0) (hc : (t.lane d).settle l = .ok lane) :
    Forward ((t.setLane d lane).next d) := by
  obtain ⟨hbuf, hlen, hread, hwritten, -, -⟩ := settle_eq_ok hc
  have hlate := h.not_accepting hp rfl
  -- as if the thread were somewhere between the lanes
  have hres : Forward ((t.setLane d lane).goto .resumed) := by
    refine ⟨fun e => ?_, nofun, nofun, nofun, fun ha => absurd ha hlate⟩
    have hb := h.bytes e
    rw [hp] at hb
    by_cases hed : e = d
    · subst hed
      have h0 : l.toNat = 0 := by omega
      simp only [PollPc.inHand, if_true, h0, List.take_zero, List.append_nil] at hb
      simp only [Tunnel.goto, setLane_self, PollPc.inHand, Lane.held, hlen, h0, List.take_zero,
        List.append_nil, hread, hwritten, hb]
    · have hde : d ≠ e := Ne.symm hed
      simp only [PollPc.inHand, if_neg hde] at hb
      simp only [Tunnel.goto, PollPc.inHand, setLane_of_ne _ hed]
      exact hb
  cases d with
  | send => exact hres.startWrite .recv rfl
  | recv => exact hres.goto_late rfl rfl rfl rfl

/-! ## Every step -/

theorem Forward.step (h : Forward t) {a : Act} (hstep : Tunnels.step t a = .ok t') :
    Forward t' := by
  have same : ∀ d, (t.lane d).buf = (t.lane d).buf ∧ (t.lane d).bufLen = (t.lane d).bufLen ∧
      (t.lane d).read = (t.lane d).read ∧ (t.lane d).written = (t.lane d).written :=
    fun _ => ⟨rfl, rfl, rfl, rfl⟩
  have late : ∀ {u : Tunnel}, ¬u.accepting → u.accepting → Early u := fun hn ha => absurd ha hn
  cases step_cases hstep with
  | begin hs hst =>
    have he := h.early (.inl hs)
    exact h.congr same (.inl rfl) fun _ => ⟨he.lanes, he.pc, he.sampled, he.state⟩
  | accept hs => exact h.accept hs
  | start hs ho => exact h.congr same (.inl rfl) (late (by simp [Tunnel.accepting, Tunnel.start]))
  | refuse hs =>
    exact h.congr same (.inl rfl) (late (by simp [Tunnel.accepting, Tunnel.specFatal]))
  | pause hs hst =>
    exact h.congr same (.inr rfl) (late (by simp [Tunnel.accepting, Tunnel.await]))
  | @transfer d len hs hst hw =>
    refine h.congr (fun e => ?_) (.inr rfl) (late (by simp [Tunnel.accepting, Tunnel.await]))
    by_cases hed : e = d
    · subst hed
      simp [Tunnel.await]
    · simp [Tunnel.await, setLane_of_ne _ hed]
  | resume hs hst =>
    exact h.congr same (.inr rfl) (late (by simp [Tunnel.accepting, Tunnel.resume]))
  | specWake hs => exact h.congr same (.inl rfl) (late (by simp [Tunnel.accepting]))
  | finish hs =>
    exact h.congr same (.inr rfl) (late (by simp [Tunnel.accepting, Tunnel.finish]))
  | opened hp ho hv => exact h.goto_early hp rfl (by simp) rfl nofun
  | closed hp ho => exact h.goto_early hp rfl (by simp) rfl nofun
  | acceptWait hp hst hv =>
    rcases hp with hp | hp
    · exact h.goto_early hp rfl (by simp) rfl nofun
    · exact h.goto_early hp rfl (by simp) rfl nofun
  | sample hp hst =>
    rcases hp with hp | hp
    · exact h.goto_early hp rfl (by simp) rfl fun ha _ _ =>
        hst ((h.early ha).state (by simp [hp]))
    · exact h.goto_early hp rfl (by simp) rfl fun ha _ _ =>
        hst ((h.early ha).state (by simp [hp]))
  | stopped hp hv =>
    rcases hp with ⟨s, hp⟩ | hp
    · exact h.goto_early hp rfl (by simp) rfl nofun
    · exact h.goto_late hp rfl rfl rfl
  | @poll s hp hv =>
    refine h.goto (hp ▸ rfl) rfl fun ha => ?_
    have := (h.early ha).sampled s hp
    rw [hv] at this
    cases this
  | polled hp =>
    have := h.goto_late hp rfl rfl (show (PollPc.enter .send).between = true from rfl)
    exact this.congr (fun _ => ⟨rfl, rfl, rfl, rfl⟩) (.inl rfl)
      fun ha => absurd ha (h.not_accepting hp rfl)
  | skip hp hw => exact h.goto_late hp rfl rfl (between_after _)
  | @enter d hp hb hw =>
    refine ⟨fun e => ?_, fun e len he => ?_, nofun, nofun,
      fun ha => absurd ha (h.not_accepting hp rfl)⟩
    · have := h.bytes e
      rw [hp] at this
      exact this
    · cases he
      exact hb
  | read hp hl => exact h.fetched hp _
  | store hp => exact h.stored hp
  | signal hp hst hw hb => exact (h.wake .spec).goto_late hp rfl rfl rfl
  | pass hp hw => exact h.goto_late hp rfl rfl rfl
  | testWake hp => exact h.goto_late hp rfl rfl rfl
  | resumed hp hv => exact h.startWrite .send hp
  | write hp h0 hk => exact h.wrote hp h0 hk
  | commit hp hl hc => exact h.commit hp hl hc
  | ending hp =>
    unfold Tunnel.endPoll
    split
    · exact (h.wake .spec).goto_early hp rfl (by simp) rfl nofun
    · exact h.goto_early hp rfl (by simp) rfl nofun
  | endWait hp => exact h.goto_early hp rfl (by simp) rfl nofun
  | closing hp =>
    refine ⟨fun d => ?_, nofun, nofun, nofun, fun ha => ?_⟩
    · have := h.bytes d
      rw [hp] at this
      exact this
    · exact ⟨(h.early ha).lanes, rfl, nofun, fun hd => absurd rfl hd⟩
  | tunnelWait => exact h.wake _
  | spurious => exact h.wake _
  | stop =>
    exact h.congr same (.inl rfl) fun ha =>
      ⟨(h.early ha).lanes, (h.early ha).pc, fun _ _ => rfl, (h.early ha).state⟩

end

theorem forward_start (startPaused : Bool) : Forward (tunnelStart startPaused) where
  bytes _ := rfl
  fetch := nofun
  store := nofun
  write := nofun
  early _ := ⟨fun _ => rfl, rfl, nofun, fun _ => rfl⟩

theorem run_forward (startPaused : Bool) {l : List Act} {t : Tunnel}
    (h : run step (tunnelStart startPaused) l = .ok t) : Forward t :=
  run_keeps (fun _ _ _ hi hs => hi.step hs) l _ t (forward_start startPaused) h

/-- In every run and for each lane: what was written is a prefix of what was read, and as long as
neither `tunnel_read` nor `tunnel_write` is handling the lane the rest is the content of the
buffer. -/
theorem tunnel_forwards (startPaused : Bool) (l : List Act) (t : Tunnel)
    (h : run step (tunnelStart startPaused) l = .ok t) (d : Dir) :
    (t.lane d).written <+: (t.lane d).read ∧
      (t.poll.handles d = false →
        (t.lane d).read = (t.lane d).written ++ (t.lane d).buf.take (t.lane d).bufLen.toNat) := by
  have hb := (run_forward startPaused h).bytes d
  refine ⟨?_, fun hp => ?_⟩
  · rw [hb]
    exact List.prefix_append _ _
  · rw [hb, inHand_of_not_handles hp, Lane.held]

/-- Three bytes are read, and two of them are written. -/
theorem tunnel_forwards_part : ∃ t,
    run step (tunnelStart false) [.begin, .accept, .pollStep, .pollStep, .pollStep,
      .polled true false, .pollStep, .read [1, 2, 3], .pollStep, .pollStep, .pollStep, .pollStep,
      .write 2] = .ok t ∧ (t.lane .send).written = [1, 2] ∧
      (t.lane .send).written <+: (t.lane .send).read :=
  ⟨_, rfl, rfl, (tunnel_forwards false [.begin, .accept, .pollStep, .pollStep, .pollStep,
    .polled true false, .pollStep, .read [1, 2, 3], .pollStep, .pollStep, .pollStep, .pollStep,
    .write 2] _ rfl .send).1⟩

end Tunnels
end VTest
