import VTest.Tunnel.Forward

/-!
# VTest.Tunnel.Transfer

How many bytes `send` and `recv` move.

A command and the poll thread take turns: the command says how much is to be moved and waits, and
the poll thread signals when nothing is left to be done and both buffers are empty. `Phase` lists
the situations the two can be in. A lane is `Still` when nothing moves in it, and `Owing` while the
poll thread works on a command.

The commands wait once and do not look whether the poll thread is done. So all this rests on the
waits of the spec thread being ended by the poll thread alone (`Heeded`).
-/

namespace VTest
namespace Tunnels

/-! ## Lanes -/

/-- Nothing moves in the lane. -/
structure Still (t : Tunnel) (d : Dir) : Prop where
  wrkLen : (t.lane d).wrkLen = 0
  bufLen : (t.lane d).bufLen = 0
  fetch : ∀ len, t.poll ≠ .fetch d len
  store : ∀ res, t.poll ≠ .store d res
  write : ∀ p l, t.poll = .write d p l → l ≤ 0

/-- When `wrk_len` bytes more have been moved, `goal` bytes will have been read. What is in the
buffer counts as not moved. -/
structure Owing (t : Tunnel) (d : Dir) (goal : Nat) : Prop where
  count : (∀ res, t.poll ≠ .store d res) →
    ((t.lane d).read.length : Int) + (t.lane d).wrkLen = goal + (t.lane d).bufLen
  le : (t.lane d).bufLen ≤ (t.lane d).wrkLen
  fetch : ∀ len, t.poll = .fetch d len → len ≤ (t.lane d).wrkLen
  store : ∀ res, t.poll = .store d res →
    res ≤ (t.lane d).wrkLen ∧ (t.lane d).read.length + (t.lane d).wrkLen = goal + res

/-- No command is at work. -/
def Idle (t : Tunnel) : Prop := ∀ d, (t.lane d).wrkLen = 0

theorem Idle.of_wrkLen {t t' : Tunnel} (h : Idle t)
    (hw : ∀ d, (t'.lane d).wrkLen = (t.lane d).wrkLen) : Idle t' :=
  fun d => (hw d).trans (h d)

/-- Both ends are open, and the test goes on. -/
structure Live (t : Tunnel) : Prop where
  running : t.vtcStop = false
  isOpen : ∀ d, 0 ≤ (t.lane d).bufLen

theorem Live.congr {t t' : Tunnel} (h : Live t) (hv : t'.vtcStop = t.vtcStop)
    (hb : ∀ d, (t'.lane d).bufLen = (t.lane d).bufLen) : Live t' :=
  ⟨hv.trans h.running, fun d => (h.isOpen d).trans_eq (hb d).symm⟩

/-- The poll thread is behind its loop. -/
def PollPc.over : PollPc → Bool
  | .ending | .endWait _ | .closing | .done => true
  | _ => false

section

variable {t t' : Tunnel} {d : Dir} {g : Nat}

theorem tunnelIsOpen_iff : t.tunnelIsOpen = true ↔ ∀ d, 0 ≤ (t.lane d).bufLen := by
  simp only [Tunnel.tunnelIsOpen, Bool.and_eq_true, decide_eq_true_eq]
  exact ⟨fun h => forall_dir h.1 h.2, fun h => ⟨h .send, h .recv⟩⟩

theorem ne_fetch_of_not_handles {pc : PollPc} (h : pc.handles d = false) (len : Nat) :
    pc ≠ .fetch d len := by
  rintro rfl
  simp [PollPc.handles] at h

theorem ne_store_of_not_handles {pc : PollPc} (h : pc.handles d = false) (res : Nat) :
    pc ≠ .store d res := by
  rintro rfl
  simp [PollPc.handles] at h

theorem ne_write_of_not_handles {pc : PollPc} (h : pc.handles d = false) (p : Nat) (l : Int) :
    pc ≠ .write d p l := by
  rintro rfl
  simp [PollPc.handles] at h

/-- A signal leaves a thread that handles a lane where it is. -/
theorem eq_of_signal_eq {pc q : PollPc} (h : pc.signal = q) (hq : q.between = false) : pc = q := by
  cases hb : pc.blocked with
  | true =>
    rw [← h, between_signal, between_of_blocked hb] at hq
    cases hq
  | false => rwa [signal_eq_self hb] at h

theorem over_signal (pc : PollPc) : pc.signal.over = pc.over := by
  cases pc <;> rfl

/-- In a lane where nothing moves, everything that was read is written. -/
theorem Still.written_eq (h : Still t d) (hf : Forward t) :
    (t.lane d).written = (t.lane d).read := by
  have hb := hf.bytes d
  have hin : t.poll.inHand d (t.lane d) = [] := by
    cases hp : t.poll.handles d with
    | false => rw [inHand_of_not_handles hp, Lane.held, h.bufLen]; rfl
    | true =>
      cases hpc : t.poll with
      | fetch e len =>
        show (t.lane d).held = []
        rw [Lane.held, h.bufLen]
        rfl
      | store e res =>
        rw [hpc] at hp
        cases of_decide_eq_true hp
        exact absurd hpc (h.store res)
      | write e p l =>
        rw [hpc] at hp
        cases of_decide_eq_true hp
        have h0 : l.toNat = 0 := by
          have := h.write p l hpc
          omega
        simp [PollPc.inHand, h0]
      | _ =>
        rw [hpc] at hp
        cases hp
  rw [hin, List.append_nil] at hb
  exact hb.symm

/-- The poll thread is not in the lane. -/
theorem still_of_not_handles (hw : (t.lane d).wrkLen = 0) (hb : (t.lane d).bufLen = 0)
    (hp : t.poll.handles d = false) : Still t d where
  wrkLen := hw
  bufLen := hb
  fetch := ne_fetch_of_not_handles hp
  store := ne_store_of_not_handles hp
  write p l hpc := absurd hpc (ne_write_of_not_handles hp p l)

theorem Still.of_not_handles (h : Still t d) (hl : t'.lane d = t.lane d)
    (hp : t'.poll.handles d = false) : Still t' d :=
  still_of_not_handles (hl ▸ h.wrkLen) (hl ▸ h.bufLen) hp

theorem Owing.of_not_handles (h : Owing t d g) (hl : t'.lane d = t.lane d)
    (hp : t.poll.handles d = false) (hp' : t'.poll.handles d = false) : Owing t' d g where
  count _ := hl ▸ h.count (ne_store_of_not_handles hp)
  le := hl ▸ h.le
  fetch len hpc := absurd hpc (ne_fetch_of_not_handles hp' len)
  store res hpc := absurd hpc (ne_store_of_not_handles hp' res)

theorem Still.congr (h : Still t d) (hl : t'.lane d = t.lane d) (hp : t'.poll = t.poll) :
    Still t' d where
  wrkLen := hl ▸ h.wrkLen
  bufLen := hl ▸ h.bufLen
  fetch len hpc := h.fetch len (hp ▸ hpc)
  store res hpc := h.store res (hp ▸ hpc)
  write p l hpc := h.write p l (hp ▸ hpc)

theorem Still.signal (h : Still t d) (hl : t'.lane d = t.lane d) (hp : t'.poll = t.poll.signal) :
    Still t' d where
  wrkLen := hl ▸ h.wrkLen
  bufLen := hl ▸ h.bufLen
  fetch len hpc := h.fetch len (eq_of_signal_eq (hp.symm.trans hpc) rfl)
  store res hpc := h.store res (eq_of_signal_eq (hp.symm.trans hpc) rfl)
  write p l hpc := h.write p l (eq_of_signal_eq (hp.symm.trans hpc) rfl)

theorem Owing.signal (h : Owing t d g) (hl : t'.lane d = t.lane d)
    (hp : t'.poll = t.poll.signal) : Owing t' d g where
  count hns := by
    rw [hl]
    refine h.count fun res hpc => hns res ?_
    rw [hp, hpc]
    rfl
  le := hl ▸ h.le
  fetch len hpc := hl ▸ h.fetch len (eq_of_signal_eq (hp.symm.trans hpc) rfl)
  store res hpc := hl ▸ h.store res (eq_of_signal_eq (hp.symm.trans hpc) rfl)

end

/-! ## What a step of the poll thread keeps -/

/-- A step that leaves the spec thread alone. -/
structure Kept (t t' : Tunnel) : Prop where
  spec : t'.spec = t.spec
  state : t'.state = t.state
  mark : t'.mark = t.mark
  idle : Idle t → Idle t'
  still : t.state = .paused → ∀ d, Still t d → Still t' d ∧ (t'.lane d).read = (t.lane d).read
  owing : t.state = .paused → ∀ d g, Owing t d g → Owing t' d g

section

variable {t t' t'' : Tunnel} {d : Dir}

theorem Kept.trans (h : Kept t t') (h' : Kept t' t'') : Kept t t'' where
  spec := h'.spec.trans h.spec
  state := h'.state.trans h.state
  mark := h'.mark.trans h.mark
  idle hi := h'.idle (h.idle hi)
  still hs d hq :=
    have h1 := h.still hs d hq
    have h2 := h'.still (h.state.trans hs) d h1.1
    ⟨h2.1, h2.2.trans h1.2⟩
  owing hs d g ho := h'.owing (h.state.trans hs) d g (h.owing hs d g ho)

/-- The thread moves between the lanes. -/
theorem Kept.goto {pc pc' : PollPc} (hp : t.poll = pc) (hb : pc.between = true)
    (hb' : pc'.between = true) : Kept t (t.goto pc') where
  spec := rfl
  state := rfl
  mark := rfl
  idle hi := hi
  still _ d hq := ⟨hq.of_not_handles rfl (not_handles_of_between hb' d), rfl⟩
  owing _ d _ ho := ho.of_not_handles rfl (not_handles_of_between (hp ▸ hb) d)
    (not_handles_of_between hb' d)

theorem Kept.signal (t : Tunnel) : Kept t (t.wake .poll) where
  spec := rfl
  state := rfl
  mark := rfl
  idle hi := hi
  still _ _ hq := ⟨hq.signal rfl rfl, rfl⟩
  owing _ _ _ ho := ho.signal rfl rfl

theorem readLen_le {len : Nat} (h : len ≠ 0) : readLen len ≤ len := by
  unfold readLen
  split <;> omega

/-- `tunnel_read` asks for no more than the command does. -/
theorem Kept.enter (hp : t.poll = .enter d)
    (hw : (t.lane d).wrkLen = 0 → t.state ≠ .paused) :
    Kept t (t.goto (.fetch d (readLen (t.lane d).wrkLen))) where
  spec := rfl
  state := rfl
  mark := rfl
  idle hi := hi
  still hst e hq := by
    by_cases hed : d = e
    · subst hed
      exact absurd hst (hw hq.wrkLen)
    · exact ⟨hq.of_not_handles rfl (decide_eq_false hed), rfl⟩
  owing hst e g ho := by
    have hold : t.poll.handles e = false := by rw [hp]; rfl
    by_cases hed : d = e
    · subst hed
      have hwl : (t.lane d).wrkLen ≠ 0 := fun h0 => hw h0 hst
      refine ⟨fun _ => ho.count (ne_store_of_not_handles hold), ho.le, fun len hpc => ?_,
        fun _ hpc => (by cases hpc)⟩
      cases hpc
      exact readLen_le hwl
    · exact ho.of_not_handles rfl hold (decide_eq_false hed)

theorem Kept.fetched (hf : Forward t) {len : Nat} {data : Bytes} (hp : t.poll = .fetch d len)
    (hl : data.length ≤ len) : Kept t (t.fetched d data) where
  spec := rfl
  state := rfl
  mark := rfl
  idle hi := hi.of_wrkLen (setLane_field Lane.wrkLen rfl)
  still _ e hq := by
    by_cases hed : e = d
    · subst hed
      exact absurd hp (hq.fetch len)
    · have hlane : (t.fetched d data).lane e = t.lane e := setLane_of_ne _ hed _
      exact ⟨hq.of_not_handles hlane (decide_eq_false (Ne.symm hed)), by rw [hlane]⟩
  owing _ e g ho := by
    by_cases hed : e = d
    · subst hed
      have hc := ho.count fun res => by simp [hp]
      have hle := ho.fetch len hp
      rw [hf.fetch e len hp] at hc
      refine ⟨fun h => absurd rfl (h data.length), ?_, fun _ hpc => (by cases hpc),
        fun res hpc => ?_⟩
      · simpa [Tunnel.fetched, Tunnel.goto] using ho.le
      · cases hpc
        simp only [Tunnel.fetched, Tunnel.goto, setLane_self, List.length_append]
        omega
    · have hlane : (t.fetched d data).lane e = t.lane e := setLane_of_ne _ hed _
      exact ho.of_not_handles hlane (by rw [hp]; exact decide_eq_false (Ne.symm hed))
        (decide_eq_false (Ne.symm hed))

theorem Kept.stored {res : Nat} (hp : t.poll = .store d res)
    (hopen : 0 ≤ ((t.stored d res).lane d).bufLen) : Kept t (t.stored d res) where
  spec := rfl
  state := rfl
  mark := rfl
  idle hi := hi.of_wrkLen (setLane_field Lane.wrkLen rfl)
  still _ e hq := by
    by_cases hed : e = d
    · subst hed
      exact absurd hp (hq.store res)
    · have hlane : (t.stored d res).lane e = t.lane e := setLane_of_ne _ hed _
      exact ⟨hq.of_not_handles hlane (not_handles_of_between (between_after d) e), by rw [hlane]⟩
  owing _ e g ho := by
    have hnew : ∀ e, (t.stored d res).poll.handles e = false :=
      not_handles_of_between (between_after d)
    by_cases hed : e = d
    · subst hed
      obtain ⟨hle, hc⟩ := ho.store res hp
      have hres : res ≠ 0 := by
        rintro rfl
        simp [Tunnel.stored, Tunnel.goto] at hopen
      refine ⟨fun _ => ?_, ?_, fun len hpc => absurd hpc (ne_fetch_of_not_handles (hnew e) len),
        fun r hpc => absurd hpc (ne_store_of_not_handles (hnew e) r)⟩
      · simp only [Tunnel.stored, Tunnel.goto, setLane_self, if_neg hres]
        omega
      · simp only [Tunnel.stored, Tunnel.goto, setLane_self, if_neg hres]
        omega
    · have hlane : (t.stored d res).lane e = t.lane e := setLane_of_ne _ hed _
      exact ho.of_not_handles hlane (by rw [hp]; exact decide_eq_false (Ne.symm hed)) (hnew e)

/-- The count of a lane does not change while it is written. -/
theorem Kept.wrote {p k : Nat} {l : Int} (hp : t.poll = .write d p l) (h0 : 0 < k) (hk : k ≤ l) :
    Kept t (t.wrote d p l k) where
  spec := rfl
  state := rfl
  mark := rfl
  idle hi := hi.of_wrkLen (setLane_field Lane.wrkLen rfl)
  still _ e hq := by
    by_cases hed : e = d
    · subst hed
      have := hq.write p l hp
      omega
    · have hlane : (t.wrote d p l k).lane e = t.lane e := setLane_of_ne _ hed _
      exact ⟨hq.of_not_handles hlane (decide_eq_false (Ne.symm hed)), by rw [hlane]⟩
  owing _ e g ho := by
    by_cases hed : e = d
    · subst hed
      have hc := ho.count fun res => by simp [hp]
      refine ⟨fun _ => ?_, ?_, fun _ hpc => (by cases hpc), fun _ hpc => (by cases hpc)⟩
      · simpa [Tunnel.wrote, Tunnel.goto] using hc
      · simpa [Tunnel.wrote, Tunnel.goto] using ho.le
    · have hlane : (t.wrote d p l k).lane e = t.lane e := setLane_of_ne _ hed _
      exact ho.of_not_handles hlane (by rw [hp]; exact decide_eq_false (Ne.symm hed))
        (decide_eq_false (Ne.symm hed))

theorem Kept.startWrite (d : Dir) (hp : t.poll = .resumed) :
    Kept t (t.goto (.write d 0 (t.lane d).bufLen)) where
  spec := rfl
  state := rfl
  mark := rfl
  idle hi := hi
  still _ e hq := by
    by_cases hed : d = e
    · subst hed
      refine ⟨⟨hq.wrkLen, hq.bufLen, fun _ hpc => (by cases hpc), fun _ hpc => (by cases hpc),
        fun p l hpc => ?_⟩, rfl⟩
      cases hpc
      exact Int.le_of_eq hq.bufLen
    · exact ⟨hq.of_not_handles rfl (decide_eq_false hed), rfl⟩
  owing _ e g ho := by
    refine ⟨fun _ => ?_, ho.le, fun _ hpc => (by cases hpc), fun _ hpc => (by cases hpc)⟩
    exact ho.count fun res => by simp [hp]

/-- What was written is no longer owed. -/
theorem Kept.commit (hf : Forward t) {p : Nat} {l : Int} {lane : Lane}
    (hp : t.poll = .write d p l) (hl : l ≤ 0) (hc : (t.lane d).settle l = .ok lane)
    (hopen : 0 ≤ (t.lane d).bufLen) : Kept t ((t.setLane d lane).next d) := by
  obtain ⟨-, hlen, hread, -, hzero, hpos⟩ := settle_eq_ok hc
  have hl0 : l = 0 := by
    have := (hf.write d p l hp).mp hopen
    omega
  have hres : Kept t ((t.setLane d lane).goto .resumed) := by
    refine ⟨rfl, rfl, rfl, fun hi e => ?_, fun _ e hq => ?_, fun _ e g ho => ?_⟩
    · by_cases hed : e = d
      · subst hed
        simpa [Tunnel.goto] using hzero (hi e)
      · simpa [Tunnel.goto, setLane_of_ne _ hed] using hi e
    · by_cases hed : e = d
      · subst hed
        have hlane : ((t.setLane e lane).goto .resumed).lane e = lane := setLane_self ..
        refine ⟨still_of_not_handles ?_ ?_ rfl, by rw [hlane, hread]⟩
        · rw [hlane, hzero hq.wrkLen]
        · rw [hlane, hlen, hl0]
      · have hlane : ((t.setLane d lane).goto .resumed).lane e = t.lane e := setLane_of_ne _ hed _
        exact ⟨hq.of_not_handles hlane rfl, by rw [hlane]⟩
    · by_cases hed : e = d
      · subst hed
        have hlane : ((t.setLane e lane).goto .resumed).lane e = lane := setLane_self ..
        have hcount := ho.count fun res => by simp [hp]
        have hle := ho.le
        refine ⟨fun _ => ?_, ?_, fun _ hpc => (by cases hpc), fun _ hpc => (by cases hpc)⟩
        · rw [hlane, hread, hlen, hl0]
          rcases Nat.eq_zero_or_pos (t.lane e).wrkLen with hw | hw
          · rw [hzero hw]
            omega
          · obtain ⟨h1, h2, h3⟩ := hpos hw (by omega)
            rw [h3]
            omega
        · rw [hlane, hlen, hl0]
          exact Int.natCast_nonneg _
      · have hlane : ((t.setLane d lane).goto .resumed).lane e = t.lane e := setLane_of_ne _ hed _
        exact ho.of_not_handles hlane (by rw [hp]; exact decide_eq_false (Ne.symm hed)) rfl
  cases d with
  | send => exact hres.trans (Kept.startWrite .recv rfl)
  | recv => exact hres.trans (Kept.goto rfl rfl rfl)

end

/-! ## Phases -/

/-- The situations of a tunnel whose ends are open. -/
inductive Phase (t : Tunnel) : Prop where
  | accepting (hs : t.accepting) (hi : Idle t)
  | running (hs : t.spec = .ready ∨ ∃ c, t.spec = .checked c) (hst : t.state = .running)
      (hi : Idle t)
  | paused (hs : t.spec = .ready ∨ ∃ c, t.spec = .checked c) (hst : t.state = .paused)
      (hq : ∀ d, Still t d) (hm : ∀ c, t.spec = .checked c → ∀ d, (t.lane d).read.length = t.mark d)
  | pausing (hs : t.spec = .waiting .pause false) (hst : t.state = .paused) (hi : Idle t)
  | pauseDone (hs : t.spec = .waiting .pause true) (hst : t.state = .paused)
      (hq : ∀ d, Still t d)
  | moving {d : Dir} {n : Nat} (hs : t.spec = .waiting (.transfer d n) false)
      (hst : t.state = .paused) (ho : Owing t d (t.mark d + n))
      (hq : ∀ e, e ≠ d → Still t e ∧ (t.lane e).read.length = t.mark e)
  | moved {d : Dir} {n : Nat} (hs : t.spec = .waiting (.transfer d n) true)
      (hst : t.state = .paused) (hq : ∀ e, Still t e)
      (hd : (t.lane d).read.length = t.mark d + n)
      (he : ∀ e, e ≠ d → (t.lane e).read.length = t.mark e)
  | ended (hs : t.spec = .ended) (hst : t.state = .paused → ∀ d, Still t d) (hi : Idle t)

/-- A wait of the spec thread is ended by the poll thread only. -/
def Heeded (t : Tunnel) : Act → Prop
  | .tunnelWait .spec | .spurious .spec => t.spec.blocked = false
  | _ => True

section

variable {t t' : Tunnel}

theorem idle_of_still (h : ∀ d, Still t d) : Idle t := fun d => (h d).wrkLen

theorem Phase.kept (h : Phase t) (k : Kept t t') : Phase t' := by
  have stills : t.state = .paused → (∀ d, Still t d) → ∀ d, Still t' d :=
    fun hst hq d => (k.still hst d (hq d)).1
  cases h with
  | accepting hs hi =>
    refine .accepting ?_ (k.idle hi)
    unfold Tunnel.accepting
    rw [k.spec]
    exact hs
  | running hs hst hi => exact .running (k.spec ▸ hs) (k.state.trans hst) (k.idle hi)
  | paused hs hst hq hm =>
    refine .paused (k.spec ▸ hs) (k.state.trans hst) (stills hst hq) fun c hc d => ?_
    rw [(k.still hst d (hq d)).2, k.mark]
    exact hm c (k.spec ▸ hc) d
  | pausing hs hst hi => exact .pausing (k.spec.trans hs) (k.state.trans hst) (k.idle hi)
  | pauseDone hs hst hq => exact .pauseDone (k.spec.trans hs) (k.state.trans hst) (stills hst hq)
  | moving hs hst ho hq =>
    refine .moving (k.spec.trans hs) (k.state.trans hst) ?_ fun e hne => ?_
    · rw [k.mark]
      exact k.owing hst _ _ ho
    · obtain ⟨h1, h2⟩ := k.still hst e (hq e hne).1
      exact ⟨h1, by rw [h2, k.mark, (hq e hne).2]⟩
  | moved hs hst hq hd he =>
    refine .moved (k.spec.trans hs) (k.state.trans hst) (stills hst hq) ?_ fun e hne => ?_
    · rw [(k.still hst _ (hq _)).2, k.mark, hd]
    · rw [(k.still hst e (hq e)).2, k.mark, he e hne]
  | ended hs hst hi =>
    refine .ended (k.spec.trans hs) (fun hst' => ?_) (k.idle hi)
    rw [k.state] at hst'
    exact stills hst' (hst hst')

/-! ## Steps of the spec thread -/

/-- The phases between two commands. -/
theorem Phase.at_rest (h : Phase t) (hs : t.spec = .ready ∨ ∃ c, t.spec = .checked c) :
    Idle t ∧ (t.state = .running ∨ t.state = .paused ∧ ∀ d, Still t d) := by
  have absurd_spec : ∀ {pc : SpecPc}, t.spec = pc → (pc ≠ .ready) → (∀ c, pc ≠ .checked c) →
      Idle t ∧ (t.state = .running ∨ t.state = .paused ∧ ∀ d, Still t d) := by
    intro pc h1 h2 h3
    rcases hs with hs | ⟨c, hs⟩
    · exact absurd (h1.symm.trans hs) h2
    · exact absurd (h1.symm.trans hs) (h3 c)
  cases h with
  | accepting hs' _ =>
    rcases hs' with hs' | hs'
    · exact absurd_spec hs' (by simp) (by simp)
    · exact absurd_spec hs' (by simp) (by simp)
  | running _ hst hi => exact ⟨hi, .inl hst⟩
  | paused _ hst hq _ => exact ⟨idle_of_still hq, .inr ⟨hst, hq⟩⟩
  | pausing hs' => exact absurd_spec hs' (by simp) (by simp)
  | pauseDone hs' => exact absurd_spec hs' (by simp) (by simp)
  | moving hs' => exact absurd_spec hs' (by simp) (by simp)
  | moved hs' => exact absurd_spec hs' (by simp) (by simp)
  | ended hs' => exact absurd_spec hs' (by simp) (by simp)

theorem Phase.still_of_paused (h : Phase t) (hs : t.spec = .ready ∨ ∃ c, t.spec = .checked c)
    (hst : t.state = .paused) : ∀ d, Still t d := by
  rcases (h.at_rest hs).2 with hr | hr
  · rw [hst] at hr
    cases hr
  · exact hr.2

theorem phase_accept (hf : Forward t) (hs : t.spec = .accepting) : Phase t.accept := by
  have hb : t.accept.poll.between = true :=
    (between_signal _).trans (between_of_early (hf.early (.inr hs)).pc)
  have hq : ∀ d, Still t.accept d := fun d =>
    still_of_not_handles rfl rfl (not_handles_of_between hb d)
  cases hp : t.startPaused with
  | true => exact .paused (.inl rfl) (by simp [Tunnel.accept, hp]) hq fun _ hs' => by cases hs'
  | false => exact .running (.inl rfl) (by simp [Tunnel.accept, hp]) (idle_of_still hq)

theorem Phase.start (h : Phase t) (hf : Forward t) (hs : t.spec = .ready) (c : Cmd) :
    Phase (t.start c) := by
  obtain ⟨hi, hr | ⟨hst, hq⟩⟩ := h.at_rest (.inl hs)
  · exact .running (.inr ⟨c, rfl⟩) hr hi
  · refine .paused (.inr ⟨c, rfl⟩) hst (fun d => (hq d).congr rfl rfl) fun _ _ d => ?_
    show (t.lane d).read.length = (t.lane d).written.length
    rw [(hq d).written_eq hf]

theorem Phase.refuse (h : Phase t) (hs : t.spec = .ready ∨ ∃ c, t.spec = .checked c) :
    Phase t.specFatal := by
  exact .ended rfl (fun hst d => (h.still_of_paused hs hst d).congr rfl rfl) (h.at_rest hs).1

theorem Phase.transfer (h : Phase t) {d : Dir} {len : Nat}
    (hs : t.spec = .checked (.transfer d len)) (hst : t.state = .paused) :
    Phase ((t.setLane d { t.lane d with wrkLen := len }).await (.transfer d len)) := by
  have hq := h.still_of_paused (.inr ⟨_, hs⟩) hst
  have hm : ∀ e, (t.lane e).read.length = t.mark e := by
    cases h with
    | paused _ _ _ hm => exact hm _ hs
    | running _ hr => rw [hst] at hr; cases hr
    | accepting hs' => rcases hs' with hs' | hs' <;> rw [hs] at hs' <;> cases hs'
    | pausing hs' | pauseDone hs' | moving hs' | moved hs' | ended hs' =>
      rw [hs] at hs'
      cases hs'
  have hpoll : ((t.setLane d { t.lane d with wrkLen := len }).await (.transfer d len)).poll =
      t.poll.signal := rfl
  refine .moving rfl hst ?_ fun e hne => ?_
  · have hlane : ((t.setLane d { t.lane d with wrkLen := len }).await (.transfer d len)).lane d =
        { t.lane d with wrkLen := len } := setLane_self ..
    refine ⟨fun _ => ?_, ?_, fun l hpc => ?_, fun res hpc => ?_⟩
    · rw [hlane]
      show ((t.lane d).read.length : Int) + len = ((t.mark d + len : Nat) : Int) + (t.lane d).bufLen
      rw [(hq d).bufLen, hm d]
      omega
    · rw [hlane]
      show (t.lane d).bufLen ≤ (len : Int)
      rw [(hq d).bufLen]
      exact Int.natCast_nonneg _
    · exact absurd (eq_of_signal_eq (hpoll.symm.trans hpc) rfl) ((hq d).fetch l)
    · exact absurd (eq_of_signal_eq (hpoll.symm.trans hpc) rfl) ((hq d).store res)
  · have hlane : ((t.setLane d { t.lane d with wrkLen := len }).await (.transfer d len)).lane e =
        t.lane e := setLane_of_ne _ hne _
    exact ⟨(hq e).signal hlane rfl, by rw [hlane]; exact hm e⟩

theorem Phase.specWake (h : Phase t) {c : Cmd} (hs : t.spec = .waiting c true) :
    Phase { t with spec := .ready } ∧ ∀ d, Still t d := by
  have done : t.state = .paused → (∀ d, Still t d) →
      Phase { t with spec := .ready } ∧ ∀ d, Still t d := fun hst hq =>
    ⟨.paused (.inl rfl) hst (fun d => (hq d).congr rfl rfl) fun _ hs' => (by cases hs'), hq⟩
  cases h with
  | accepting hs' => rcases hs' with hs' | hs' <;> rw [hs] at hs' <;> cases hs'
  | running hs' | paused hs' => rcases hs' with hs' | ⟨_, hs'⟩ <;> rw [hs] at hs' <;> cases hs'
  | pausing hs' | moving hs' | ended hs' =>
    rw [hs] at hs'
    cases hs'
  | pauseDone _ hst hq => exact done hst hq
  | moved _ hst hq => exact done hst hq

/-! ## The signal of the poll thread -/

/-- The poll thread has nothing left to do, and says so. -/
theorem Phase.signal (h : Phase t) (hp : t.poll = .test) (hw : ∀ e, (t.lane e).wrkLen = 0)
    (hb : ∀ e, (t.lane e).bufLen = 0) : Phase ((t.wake .spec).goto (.testWait false)) := by
  have hq : ∀ e, Still ((t.wake .spec).goto (.testWait false)) e := fun e =>
    still_of_not_handles (hw e) (hb e) rfl
  have hspec : ((t.wake .spec).goto (.testWait false)).spec = t.spec.signal := rfl
  cases h with
  | accepting hs hi =>
    refine .accepting ?_ (idle_of_still hq)
    unfold Tunnel.accepting
    rw [hspec]
    rcases hs with hs | hs
    · exact .inl (by rw [hs]; rfl)
    · exact .inr (by rw [hs]; rfl)
  | running hs hst hi =>
    refine .running ?_ hst (idle_of_still hq)
    rcases hs with hs | ⟨c, hs⟩
    · exact .inl (by rw [hspec, hs]; rfl)
    · exact .inr ⟨c, by rw [hspec, hs]; rfl⟩
  | paused hs hst _ hm =>
    rcases hs with hs | ⟨c, hs⟩
    · have hs' : t.spec.signal = .ready := by rw [hs]; rfl
      exact .paused (.inl hs') hst hq fun c hc => by rw [hspec, hs'] at hc; cases hc
    · have hs' : t.spec.signal = .checked c := by rw [hs]; rfl
      exact .paused (.inr ⟨c, hs'⟩) hst hq fun _ _ => hm c hs
  | pausing hs hst _ => exact .pauseDone (by rw [hspec, hs]; rfl) hst hq
  | pauseDone hs hst _ => exact .pauseDone (by rw [hspec, hs]; rfl) hst hq
  | @moving d n hs hst ho hq' =>
    refine .moved (by rw [hspec, hs]; rfl) hst hq ?_ fun e hne => (hq' e hne).2
    have hc := ho.count fun res => by simp [hp]
    rw [hw d, hb d] at hc
    show (t.lane d).read.length = t.mark d + n
    omega
  | moved hs hst _ hd he => exact .moved (by rw [hspec, hs]; rfl) hst hq hd he
  | ended hs hst hi => exact .ended (by rw [hspec, hs]; rfl) (fun _ => hq) (idle_of_still hq)

/-! ## Every step -/

/-- Ends that are open, and a test that goes on, were so before. -/
theorem Forward.live_of_step (h : Forward t) {a : Act}
    (hstep : Tunnels.step t a = .ok t') (hl : Live t') : Live t := by
  have same : t'.vtcStop = t.vtcStop → (∀ d, (t'.lane d).bufLen = (t.lane d).bufLen) → Live t :=
    fun hv hb => hl.congr hv.symm fun d => (hb d).symm
  cases step_cases hstep with
  | accept hs =>
    exact ⟨hl.running, fun d => Int.le_of_eq ((h.early (.inr hs)).lanes d).symm⟩
  | @transfer d len hs hst hw =>
    exact same rfl (setLane_field Lane.bufLen rfl)
  | @read d len data hp hdata =>
    exact same rfl (setLane_field Lane.bufLen rfl)
  | @store d res hp =>
    refine ⟨hl.running, fun e => ?_⟩
    by_cases hed : e = d
    · subst hed
      exact Int.le_of_eq (h.store e res hp).symm
    · have := hl.isOpen e
      rwa [show (t.stored d res).lane e = t.lane e from setLane_of_ne _ hed _] at this
  | @write d p k l hp h0 hk =>
    exact same rfl (setLane_field Lane.bufLen rfl)
  | @commit d p l lane hp hle hc =>
    have hlanes : ∀ e, ((t.setLane d lane).next d).lane e = (t.setLane d lane).lane e := by
      cases d <;> exact fun _ => rfl
    refine ⟨?_, fun e => ?_⟩
    · have := hl.running
      cases d <;> exact this
    · have ho := hl.isOpen e
      rw [hlanes] at ho
      by_cases hed : e = d
      · subst hed
        rw [setLane_self, (settle_eq_ok hc).2.1] at ho
        exact (h.write e p l hp).mpr ho
      · rwa [setLane_of_ne _ hed] at ho
  | ending hp =>
    unfold Tunnel.endPoll at hl
    split at hl
    · exact ⟨hl.running, hl.isOpen⟩
    · exact ⟨hl.running, hl.isOpen⟩
  | @tunnelWait th => cases th <;> exact ⟨hl.running, hl.isOpen⟩
  | @spurious th => cases th <;> exact ⟨hl.running, hl.isOpen⟩
  | stop => cases hl.running
  | begin | start | refuse | pause | resume | specWake | finish | opened | closed | acceptWait
  | sample | stopped | poll | polled | skip | enter | signal | pass | testWake | resumed | endWait
  | closing => exact ⟨hl.running, hl.isOpen⟩

/-- A live tunnel is in one of the phases, and its poll thread in its loop. -/
structure Steady (t : Tunnel) : Prop where
  phase : Phase t
  loop : t.poll.over = false

theorem wake_spec_of_not_blocked (h : t.spec.blocked = false) : t.wake .spec = t := by
  have : t.spec.signal = t.spec := by
    cases hs : t.spec with
    | waiting c woken =>
      rw [hs] at h
      cases woken with
      | true => rfl
      | false => cases h
    | _ => rfl
  unfold Tunnel.wake
  simp only [this]

theorem Steady.wake (h : Steady t) {th : Thread} (hok : th = .spec → t.spec.blocked = false) :
    Steady (t.wake th) := by
  cases th with
  | spec => rwa [wake_spec_of_not_blocked (hok rfl)]
  | poll => exact ⟨h.phase.kept (Kept.signal t), (over_signal _).trans h.loop⟩

theorem Steady.goto (h : Steady t) {pc pc' : PollPc} (hp : t.poll = pc) (hb : pc.between = true)
    (hb' : pc'.between = true) (ho : pc'.over = false) : Steady (t.goto pc') :=
  ⟨h.phase.kept (Kept.goto hp hb hb'), ho⟩

theorem over_after (d : Dir) : (PollPc.after d).over = false := by
  cases d <;> rfl

theorem Steady.step (h : Steady t) (hf : Forward t) {a : Act} (hok : Heeded t a)
    (hstep : Tunnels.step t a = .ok t') (hlive : Live t) (hl : Live t') : Steady t' := by
  have behind : ∀ {pc : PollPc}, t.poll = pc → pc.over = true → Steady t' := fun hp ho => by
    have := h.loop
    rw [hp, ho] at this
    cases this
  have signaled : t.poll.signal.over = false := (over_signal _).trans h.loop
  cases step_cases hstep with
  | begin hs hst =>
    refine ⟨.accepting (.inr rfl) ?_, h.loop⟩
    cases h.phase with
    | accepting _ hi => exact hi
    | running hs' | paused hs' => rcases hs' with hs' | ⟨_, hs'⟩ <;> rw [hs] at hs' <;> cases hs'
    | pausing hs' | pauseDone hs' | moving hs' | moved hs' | ended hs' =>
      rw [hs] at hs'
      cases hs'
  | accept hs => exact ⟨phase_accept hf hs, signaled⟩
  | start hs _ => exact ⟨h.phase.start hf hs _, h.loop⟩
  | refuse hs => exact ⟨h.phase.refuse hs, h.loop⟩
  | pause hs _ => exact ⟨.pausing rfl rfl (h.phase.at_rest (.inr ⟨_, hs⟩)).1, signaled⟩
  | transfer hs hst _ => exact ⟨h.phase.transfer hs hst, signaled⟩
  | resume hs _ => exact ⟨.running (.inl rfl) rfl (h.phase.at_rest (.inr ⟨_, hs⟩)).1, signaled⟩
  | specWake hs => exact ⟨(h.phase.specWake hs).1, h.loop⟩
  | finish hs =>
    exact ⟨.ended rfl (fun hst => by cases hst) (h.phase.at_rest (.inl hs)).1, signaled⟩
  | opened hp _ _ => exact h.goto hp rfl rfl rfl
  | closed hp ho =>
    rcases ho with ho | ho
    · rw [tunnelIsOpen_iff.mpr hlive.isOpen] at ho
      cases ho
    · rw [hlive.running] at ho
      cases ho
  | acceptWait hp _ _ => rcases hp with hp | hp <;> exact h.goto hp rfl rfl rfl
  | sample hp _ => rcases hp with hp | hp <;> exact h.goto hp rfl rfl rfl
  | stopped _ hv =>
    rw [hlive.running] at hv
    cases hv
  | poll hp _ => exact h.goto hp rfl rfl rfl
  | polled hp =>
    have k : Kept t (t.goto (.enter .send)) := Kept.goto hp rfl rfl
    exact ⟨(h.phase.kept k).kept ⟨rfl, rfl, rfl, id, fun _ _ hq => ⟨hq.of_not_handles rfl rfl, rfl⟩,
      fun _ _ _ ho => ho.of_not_handles rfl rfl rfl⟩, rfl⟩
  | skip hp _ => exact h.goto hp rfl (between_after _) (over_after _)
  | enter hp _ hw => exact ⟨h.phase.kept (Kept.enter hp hw), rfl⟩
  | read hp hdata => exact ⟨h.phase.kept (Kept.fetched hf hp hdata), rfl⟩
  | store hp => exact ⟨h.phase.kept (Kept.stored hp (hl.isOpen _)), over_after _⟩
  | signal hp _ hw hb => exact ⟨h.phase.signal hp hw hb, rfl⟩
  | pass hp _ => exact h.goto hp rfl rfl rfl
  | testWake hp => exact h.goto hp rfl rfl rfl
  | resumed hp _ => exact ⟨h.phase.kept (Kept.startWrite .send hp), rfl⟩
  | write hp h0 hk => exact ⟨h.phase.kept (Kept.wrote hp h0 hk), rfl⟩
  | @commit d _ _ _ hp hle hc =>
    refine ⟨h.phase.kept (Kept.commit hf hp hle hc (hlive.isOpen d)), ?_⟩
    cases d <;> rfl
  | ending hp => exact behind hp rfl
  | endWait hp => exact behind hp rfl
  | closing hp => exact behind hp rfl
  | @tunnelWait th => exact h.wake fun hth => by subst hth; exact hok
  | @spurious th => exact h.wake fun hth => by subst hth; exact hok
  | stop => cases hl.running

end

/-! ## Whole runs -/

theorem steady_start (startPaused : Bool) : Steady (tunnelStart startPaused) :=
  ⟨.accepting (.inl rfl) fun _ => rfl, rfl⟩

theorem run_steady (startPaused : Bool) {l : List Act} {t : Tunnel}
    (hal : Along step Heeded (tunnelStart startPaused) l)
    (h : run step (tunnelStart startPaused) l = .ok t) : Forward t ∧ (Live t → Steady t) := by
  refine run_preserves (I := fun t => Forward t ∧ (Live t → Steady t))
    (fun t a t' hi hok hs => ⟨hi.1.step hs, fun hl => ?_⟩) l _ t
    ⟨forward_start startPaused, fun _ => steady_start startPaused⟩ hal h
  have hlive := hi.1.live_of_step hs hl
  exact (hi.2 hlive).step hi.1 hok hs hlive hl

/-- The poll thread moves one byte for a command, and signals. -/
def oneByte : List Act :=
  [.begin, .accept, .start (.transfer .send 1), .lock, .pollStep, .pollStep, .pollStep,
    .polled true false, .pollStep, .read [7], .pollStep, .pollStep, .pollStep, .pollStep, .write 1,
    .pollStep, .pollStep, .pollStep, .pollStep, .pollStep, .polled false false, .pollStep,
    .pollStep, .pollStep]

end Tunnels
end VTest
