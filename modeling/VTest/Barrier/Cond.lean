import VTest.Lib.Run

/-!
# VTest.Barrier.Cond

The `cond` barrier (`vtc_barrier.c`), as the threads that call `barrier_cond_sync` see it.

A call has two sections under the mutex. The first one takes a number, the second one opens the
barrier for the caller with the last number and waits otherwise. A wait gives the mutex away, and
the test of the loop around it is made in the section that starts when it returns. Each section is
one step of the machine, and the threads take their steps in any order.

The loop ends as soon as `pthread_cond_timedwait` returns 0, whatever `cond_cycle` is, so that a
spurious wakeup opens the barrier for the thread that has it. `opens_only_full` is about the runs
without one.
-/

namespace VTest
namespace Barriers

/-- Where a thread is: outside of `barrier_cond_sync`, between the two sections with its own `w`
and `c`, in `pthread_cond_timedwait`, or ended by `vtc_fatal`. `woken` says that a broadcast was
sent since the wait began. -/
inductive Pc where
  | idle
  | entered (w : Int) (c : Nat)
  | waiting (c : Nat) (woken : Bool)
  | dead
  deriving DecidableEq, Repr

/-- What `pthread_cond_timedwait` returns. -/
inductive Wait where
  | zero
  | timedout
  deriving DecidableEq, Repr

/-- The barrier and its callers. `stop` is `vtc_stop || vtc_error`, `checked` says that
`barrier_cyclic` has found the barrier unused. The last two fields are history: the calls that
read `c` from `cond_cycle` in their first section and got a number there, and the calls of a thread
that returned. -/
structure Barrier (T : Type) where
  waiters : Nat := 0
  expected : Nat
  condCycle : Nat := 0
  cyclic : Bool
  stop : Bool := false
  checked : Bool := false
  pc : T → Pc := fun _ => .idle
  arrived : Nat → Nat := fun _ => 0
  returned : T → Nat := fun _ => 0

inductive Act (T : Type) where
  | enter (t : T)
  | proceed (t : T)
  | wake (t : T) (r : Wait)
  | stop
  | cyclicCheck
  | cyclicSet
  deriving DecidableEq, Repr

variable {T : Type} [DecidableEq T]

def Barrier.goto (b : Barrier T) (t : T) (pc : Pc) : Barrier T :=
  { b with pc := Function.update b.pc t pc }

/-- `vtc_fatal`. -/
def Barrier.die (b : Barrier T) (t : T) : Barrier T :=
  { b with pc := Function.update b.pc t .dead, stop := true }

/-- The end of a call. -/
def Barrier.leave (b : Barrier T) (t : T) : Barrier T :=
  { b.goto t .idle with returned := Function.update b.returned t (b.returned t + 1) }

/-- A caller gets the next number. -/
def Barrier.arrive (b : Barrier T) (t : T) : Barrier T :=
  { b with
    waiters := b.waiters + 1
    pc := Function.update b.pc t (.entered (b.waiters + 1) b.condCycle)
    arrived := Function.update b.arrived b.condCycle (b.arrived b.condCycle + 1) }

/-- The first section. A caller too many gets -1 for a number. -/
def firstSection (b : Barrier T) (t : T) : Res (Barrier T) := do
  check (b.waiters ≤ b.expected)
  if b.waiters = b.expected then .ok (b.goto t (.entered (-1) b.condCycle))
  else .ok (b.arrive t)

/-- `pthread_cond_broadcast`. -/
def Pc.wake : Pc → Pc
  | .waiting c _ => .waiting c true
  | pc => pc

/-- The last caller opens the barrier. -/
def Barrier.advance (b : Barrier T) : Barrier T :=
  { b with
    condCycle := b.condCycle + 1
    waiters := if b.cyclic then 0 else b.waiters
    pc := fun u => (b.pc u).wake }

/-- `cond_cycle` is an `int`. -/
def openCycle (b : Barrier T) (t : T) : Res (Barrier T) :=
  if b.condCycle < 2 ^ 31 - 1 then .ok (b.advance.leave t) else .error .ub

/-- From the end of the first section to the end of the second one, or to the wait in it. -/
def secondSection (b : Barrier T) (t : T) (w : Int) (c : Nat) : Res (Barrier T) :=
  if w < 0 then .ok (b.die t)
  else if w = b.expected then openCycle b t
  else .ok (b.goto t (.waiting c false))

/-- The test of the loop after a wait. -/
def afterWait (b : Barrier T) (t : T) (c : Nat) (r : Wait) : Barrier T :=
  if !b.stop && r = .timedout && c = b.condCycle then b.goto t (.waiting c false)
  else b.leave t

/-- One step. An action that is not there to be taken is no step. -/
def step (b : Barrier T) : Act T → Res (Barrier T)
  | .enter t =>
    match b.pc t with
    | .idle => firstSection b t
    | _ => .error .fuel
  | .proceed t =>
    match b.pc t with
    | .entered w c => secondSection b t w c
    | _ => .error .fuel
  | .wake t r =>
    match b.pc t with
    | .waiting c _ => .ok (afterWait b t c r)
    | _ => .error .fuel
  | .stop => .ok { b with stop := true }
  | .cyclicCheck => do
    fatalIf (b.waiters ≠ 0)
    .ok { b with checked := true }
  | .cyclicSet => if b.checked then .ok { b with cyclic := true } else .error .fuel

/-- A wait returns 0 only after a broadcast. -/
def NotSpurious (b : Barrier T) : Act T → Prop
  | .wake t .zero => ∀ c woken, b.pc t = .waiting c woken → woken = true
  | _ => True

/-- Thread `t` returns from a call that read `c` in its first section. -/
def Returns (b b' : Barrier T) (t : T) (c : Nat) : Prop :=
  ((∃ w, b.pc t = .entered w c) ∨ ∃ woken, b.pc t = .waiting c woken) ∧ b'.pc t = .idle

/-! ## What a step does -/

/-- All that a step can do. -/
inductive Step (b : Barrier T) : Act T → Barrier T → Prop where
  | enter {t : T} (ht : b.pc t = .idle) (hw : b.waiters < b.expected) :
      Step b (.enter t) (b.arrive t)
  | refuse {t : T} (ht : b.pc t = .idle) (hw : b.waiters = b.expected) :
      Step b (.enter t) (b.goto t (.entered (-1) b.condCycle))
  | die {t : T} {w : Int} {c : Nat} (ht : b.pc t = .entered w c) (hw : w < 0) :
      Step b (.proceed t) (b.die t)
  | last {t : T} {c : Nat} (ht : b.pc t = .entered b.expected c) :
      Step b (.proceed t) (b.advance.leave t)
  | wait {t : T} {w : Int} {c : Nat} (ht : b.pc t = .entered w c) (hw : 0 ≤ w)
      (hne : w ≠ b.expected) : Step b (.proceed t) (b.goto t (.waiting c false))
  | again {t : T} {woken : Bool} (ht : b.pc t = .waiting b.condCycle woken)
      (hs : b.stop = false) : Step b (.wake t .timedout) (b.goto t (.waiting b.condCycle false))
  | back {t : T} {r : Wait} {c : Nat} {woken : Bool} (ht : b.pc t = .waiting c woken)
      (hr : b.stop = true ∨ r = .zero ∨ c ≠ b.condCycle) : Step b (.wake t r) (b.leave t)
  | stop : Step b .stop { b with stop := true }
  | cyclicCheck (hw : b.waiters = 0) : Step b .cyclicCheck { b with checked := true }
  | cyclicSet (hc : b.checked = true) : Step b .cyclicSet { b with cyclic := true }

theorem step_cases {b b' : Barrier T} {a : Act T} (h : step b a = .ok b') : Step b a b' := by
  cases a with
  | enter t =>
    simp only [step] at h
    split at h
    · rename_i ht
      obtain ⟨hc, h⟩ := check_bind_eq_ok.mp h
      have hle : b.waiters ≤ b.expected := of_decide_eq_true hc
      split at h
      · cases h
        exact .refuse ht ‹_›
      · cases h
        exact .enter ht (by omega)
    · cases h
  | proceed t =>
    simp only [step] at h
    split at h
    · rename_i w c ht
      unfold secondSection at h
      split at h
      · cases h
        exact .die ht ‹_›
      · split at h
        · rename_i hw
          subst hw
          unfold openCycle at h
          split at h
          · cases h
            exact .last ht
          · cases h
        · cases h
          exact .wait ht (by omega) ‹_›
    · cases h
  | wake t r =>
    simp only [step] at h
    split at h
    · rename_i c woken ht
      cases h
      unfold afterWait
      split
      · rename_i hc
        simp only [Bool.and_eq_true, Bool.not_eq_true', decide_eq_true_eq] at hc
        obtain ⟨⟨hs, rfl⟩, rfl⟩ := hc
        exact .again ht hs
      · rename_i hc
        refine .back ht ?_
        cases hs : b.stop <;> cases r <;> simp_all
    · cases h
  | stop =>
    cases h
    exact .stop
  | cyclicCheck =>
    obtain ⟨hc, h⟩ := fatalIf_bind_eq_ok.mp h
    cases h
    exact .cyclicCheck (by simpa using hc)
  | cyclicSet =>
    simp only [step] at h
    split at h
    · cases h
      exact .cyclicSet ‹_›
    · cases h

section

variable (b : Barrier T) (t : T) (pc : Pc)

@[simp] theorem goto_self : (b.goto t pc).pc t = pc := Function.update_self ..

@[simp] theorem leave_self : (b.leave t).pc t = .idle := Function.update_self ..

@[simp] theorem die_self : (b.die t).pc t = .dead := Function.update_self ..

variable {t}

theorem goto_of_ne {u : T} (h : u ≠ t) : (b.goto t pc).pc u = b.pc u := Function.update_of_ne h ..

theorem leave_of_ne {u : T} (h : u ≠ t) : (b.leave t).pc u = b.pc u := Function.update_of_ne h ..

theorem arrive_self : (b.arrive t).pc t = .entered (b.waiters + 1) b.condCycle :=
  Function.update_self ..

theorem arrive_of_ne {u : T} (h : u ≠ t) : (b.arrive t).pc u = b.pc u := Function.update_of_ne h ..

end

/-! ## The invariant -/

/-- The calls of every cycle that is over were enough, and the number of waiters is that of the
calls of the current cycle, unless the barrier is used up. -/
structure Inv (b : Barrier T) : Prop where
  le : b.waiters ≤ b.expected
  full : ∀ c, c < b.condCycle → b.expected ≤ b.arrived c
  fresh : ∀ c, b.condCycle < c → b.arrived c = 0
  count : b.waiters = b.arrived b.condCycle ∨
    b.waiters = b.expected ∧ ∀ t c, b.pc t ≠ .entered b.expected c
  entered : ∀ t w c, b.pc t = .entered w c → c ≤ b.condCycle ∧ (w = -1 ∨ 1 ≤ w) ∧
    (w = b.expected → c = b.condCycle ∧ b.waiters = b.expected)
  one : ∀ t u c d, b.pc t = .entered b.expected c → b.pc u = .entered b.expected d → t = u
  waiting : ∀ t c woken, b.pc t = .waiting c woken →
    c ≤ b.condCycle ∧ (woken = true → c < b.condCycle)

omit [DecidableEq T] in
theorem inv_init (n : Nat) (cyclic : Bool) :
    Inv ({ expected := n, cyclic := cyclic } : Barrier T) where
  le := Nat.zero_le n
  full := nofun
  fresh _ _ := rfl
  count := .inl rfl
  entered := nofun
  one := nofun
  waiting := nofun

variable {b b' : Barrier T} {a : Act T}

/-- A thread that does not get the last number. -/
theorem Inv.goto (h : Inv b) (t : T) (pc : Pc) (hlast : ∀ c, pc ≠ .entered b.expected c)
    (hent : ∀ w c, pc = .entered w c → c ≤ b.condCycle ∧ (w = -1 ∨ 1 ≤ w))
    (hwait : ∀ c woken, pc = .waiting c woken →
      c ≤ b.condCycle ∧ (woken = true → c < b.condCycle)) : Inv (b.goto t pc) := by
  have hold : ∀ u c, (b.goto t pc).pc u = .entered b.expected c →
      b.pc u = .entered b.expected c := by
    intro u c hu
    by_cases hut : u = t
    · subst hut
      rw [goto_self] at hu
      exact absurd hu (hlast c)
    · rwa [goto_of_ne b pc hut] at hu
  refine ⟨h.le, h.full, h.fresh, ?_, fun u w c hu => ?_, fun u v c d hu hv => ?_,
    fun u c woken hu => ?_⟩
  · exact h.count.imp id fun ⟨hw, hno⟩ => ⟨hw, fun u c hu => hno u c (hold u c hu)⟩
  · by_cases hut : u = t
    · subst hut
      rw [goto_self] at hu
      refine ⟨(hent w c hu).1, (hent w c hu).2, fun hw => ?_⟩
      subst hw
      exact absurd hu (hlast c)
    · rw [goto_of_ne b pc hut] at hu
      exact h.entered u w c hu
  · exact h.one u v c d (hold u c hu) (hold v d hv)
  · by_cases hut : u = t
    · subst hut
      rw [goto_self] at hu
      exact hwait c woken hu
    · rw [goto_of_ne b pc hut] at hu
      exact h.waiting u c woken hu

theorem Inv.leave (h : Inv b) (t : T) : Inv (b.leave t) := by
  have hg := h.goto t .idle nofun nofun nofun
  exact ⟨hg.le, hg.full, hg.fresh, hg.count, hg.entered, hg.one, hg.waiting⟩

omit [DecidableEq T] in
/-- While there is room, nobody has the last number. -/
theorem Inv.not_last (h : Inv b) (hw : b.waiters < b.expected) (t : T) (c : Nat) :
    b.pc t ≠ .entered b.expected c := by
  intro ht
  have := ((h.entered t _ c ht).2.2 rfl).2
  omega

theorem Inv.arrive (h : Inv b) (t : T) (hw : b.waiters < b.expected) : Inv (b.arrive t) := by
  have hcount : b.waiters = b.arrived b.condCycle := by
    rcases h.count with hc | ⟨hc, -⟩
    · exact hc
    · omega
  have hlast : ∀ u c, (b.arrive t).pc u = .entered b.expected c → u = t := by
    intro u c hu
    by_contra hut
    rw [arrive_of_ne b hut] at hu
    exact h.not_last hw u c hu
  constructor
  · exact hw
  · intro c (hc : c < b.condCycle)
    show b.expected ≤ Function.update b.arrived b.condCycle _ c
    rw [Function.update_of_ne (Nat.ne_of_lt hc)]
    exact h.full c hc
  · intro c (hc : b.condCycle < c)
    show Function.update b.arrived b.condCycle _ c = 0
    rw [Function.update_of_ne (Nat.ne_of_gt hc)]
    exact h.fresh c hc
  · left
    show b.waiters + 1 = Function.update b.arrived b.condCycle _ b.condCycle
    rw [Function.update_self, hcount]
  · intro u w c hu
    by_cases hut : u = t
    · subst hut
      rw [arrive_self] at hu
      cases hu
      exact ⟨Nat.le_refl _, .inr (by omega), fun e => ⟨rfl, Int.ofNat_inj.mp e⟩⟩
    · rw [arrive_of_ne b hut] at hu
      refine ⟨(h.entered u w c hu).1, (h.entered u w c hu).2.1, fun e => ?_⟩
      subst e
      exact absurd hu (h.not_last hw u c)
  · intro u v c d hu hv
    rw [hlast u c hu, hlast v d hv]
  · intro u c woken hu
    by_cases hut : u = t
    · subst hut
      rw [arrive_self] at hu
      cases hu
    · rw [arrive_of_ne b hut] at hu
      exact h.waiting u c woken hu

theorem wake_eq_entered {pc : Pc} {w : Int} {c : Nat} :
    pc.wake = .entered w c ↔ pc = .entered w c := by
  cases pc <;> simp [Pc.wake]

theorem wake_eq_waiting {pc : Pc} {c : Nat} {woken : Bool} (h : pc.wake = .waiting c woken) :
    ∃ woken', pc = .waiting c woken' := by
  cases pc <;> simp_all [Pc.wake]

omit [DecidableEq T] in
/-- The calls of a cycle that is about to end. -/
theorem Inv.arrived_last (h : Inv b) {t : T} {c : Nat} (ht : b.pc t = .entered b.expected c) :
    c = b.condCycle ∧ b.arrived b.condCycle = b.expected := by
  obtain ⟨hc, hw⟩ := (h.entered t _ c ht).2.2 rfl
  refine ⟨hc, ?_⟩
  rcases h.count with hcount | ⟨-, hno⟩
  · rw [← hcount, hw]
  · exact absurd ht (hno t c)

/-- The barrier opens, and nobody has the last number any more. -/
theorem Inv.advance (h : Inv b) {t : T} {c : Nat} (ht : b.pc t = .entered b.expected c) :
    Inv (b.advance.leave t) := by
  have hold : ∀ u w d, (b.advance.leave t).pc u = .entered w d →
      u ≠ t ∧ b.pc u = .entered w d := by
    intro u w d hu
    by_cases hut : u = t
    · subst hut
      rw [leave_self] at hu
      cases hu
    · rw [leave_of_ne b.advance hut] at hu
      exact ⟨hut, wake_eq_entered.mp hu⟩
  have hlast : ∀ u d, (b.advance.leave t).pc u ≠ .entered b.expected d := by
    intro u d hu
    obtain ⟨hut, hu⟩ := hold u _ d hu
    exact hut (h.one u t d c hu ht)
  constructor
  · show (if b.cyclic then 0 else b.waiters) ≤ b.expected
    split
    · exact Nat.zero_le _
    · exact h.le
  · intro d hd
    rcases Nat.lt_succ_iff_lt_or_eq.mp hd with hlt | rfl
    · exact h.full d hlt
    · exact Nat.le_of_eq (h.arrived_last ht).2.symm
  · intro d hd
    exact h.fresh d (Nat.lt_of_succ_lt hd)
  · show (if b.cyclic then 0 else b.waiters) = b.arrived (b.condCycle + 1) ∨
      (if b.cyclic then 0 else b.waiters) = b.expected ∧ _
    split
    · exact .inl (h.fresh _ (Nat.lt_succ_self _)).symm
    · exact .inr ⟨((h.entered t _ c ht).2.2 rfl).2, hlast⟩
  · intro u w d hu
    obtain ⟨hd, hw, -⟩ := h.entered u w d (hold u w d hu).2
    refine ⟨Nat.le_succ_of_le hd, hw, fun e => ?_⟩
    subst e
    exact absurd hu (hlast u d)
  · exact fun u v d _ hu _ => absurd hu (hlast u d)
  · intro u d woken hu
    by_cases hut : u = t
    · subst hut
      rw [leave_self] at hu
      cases hu
    · rw [leave_of_ne b.advance hut] at hu
      obtain ⟨woken', hu⟩ := wake_eq_waiting hu
      have hd := (h.waiting u d woken' hu).1
      exact ⟨Nat.le_succ_of_le hd, fun _ => Nat.lt_succ_of_le hd⟩

theorem Step.inv (hs : Step b a b') (h : Inv b) : Inv b' := by
  cases hs with
  | enter ht hw => exact h.arrive _ hw
  | refuse ht hw =>
    refine h.goto _ _ (fun c e => ?_) (fun w c e => ?_) nofun
    · have := (Pc.entered.inj e).1
      omega
    · cases e
      exact ⟨Nat.le_refl _, .inl rfl⟩
  | die ht hw =>
    rename_i t w c
    have hg := h.goto t .dead nofun nofun nofun
    exact ⟨hg.le, hg.full, hg.fresh, hg.count, hg.entered, hg.one, hg.waiting⟩
  | last ht => exact h.advance ht
  | wait ht hw hne =>
    refine h.goto _ _ nofun nofun fun c woken e => ?_
    cases e
    exact ⟨(h.entered _ _ _ ht).1, nofun⟩
  | again ht hs =>
    refine h.goto _ _ nofun nofun fun c woken e => ?_
    cases e
    exact ⟨Nat.le_refl _, nofun⟩
  | back ht hr => exact h.leave _
  | stop => exact ⟨h.le, h.full, h.fresh, h.count, h.entered, h.one, h.waiting⟩
  | cyclicCheck hw => exact ⟨h.le, h.full, h.fresh, h.count, h.entered, h.one, h.waiting⟩
  | cyclicSet hc => exact ⟨h.le, h.full, h.fresh, h.count, h.entered, h.one, h.waiting⟩

theorem Step.expected (hs : Step b a b') : b'.expected = b.expected := by
  cases hs <;> rfl

theorem run_inv {n : Nat} {cyclic : Bool} (l : List (Act T))
    (h : run step ({ expected := n, cyclic := cyclic } : Barrier T) l = .ok b) :
    Inv b ∧ b.expected = n := by
  have hstep : ∀ (b : Barrier T) a b', Inv b ∧ b.expected = n → step b a = .ok b' →
      Inv b' ∧ b'.expected = n := by
    intro b a b' ⟨hi, he⟩ hs
    exact ⟨(step_cases hs).inv hi, (step_cases hs).expected.trans he⟩
  exact run_keeps hstep l _ b ⟨inv_init n cyclic, rfl⟩ h

theorem Step.condCycle_le (hs : Step b a b') : b.condCycle ≤ b'.condCycle := by
  cases hs with
  | last ht => exact Nat.le_succ _
  | _ => exact Nat.le_refl _

theorem run_condCycle_le (l : List (Act T)) (h : run step b l = .ok b') :
    b.condCycle ≤ b'.condCycle :=
  run_keeps (I := fun x => b.condCycle ≤ x.condCycle)
    (fun _ _ _ hi hs => Nat.le_trans hi (step_cases hs).condCycle_le) l b b' (Nat.le_refl _) h

/-- A wait that times out after the end of its round is the last one. -/
theorem step_timedout {t : T} {c : Nat} {woken : Bool} (ht : b.pc t = .waiting c woken)
    (hc : b.condCycle ≠ c) : step b (.wake t .timedout) = .ok (b.leave t) := by
  simp [step, ht, afterWait, Ne.symm hc]

theorem Inv.step_ne_assert (h : Inv b) (a : Act T) : step b a ≠ .error .assert := by
  cases a with
  | enter t =>
    simp only [step]
    split
    · simp only [firstSection, h.le, decide_true, check_true, ok_bind]
      split <;> nofun
    · nofun
  | proceed t =>
    simp only [step]
    split
    · unfold secondSection openCycle
      split
      · nofun
      · split
        · split <;> nofun
        · nofun
    · nofun
  | wake t r =>
    simp only [step]
    split <;> nofun
  | stop => nofun
  | cyclicCheck =>
    simp only [step]
    cases decide (b.waiters ≠ 0) <;> nofun
  | cyclicSet =>
    simp only [step]
    split <;> nofun

/-! ## Returns -/

/-- A call returns in the step that opens the barrier or after a wait of its own. -/
theorem Step.returns {t : T} {c : Nat} (hs : Step b a b') (hr : Returns b b' t c) :
    b.pc t = .entered b.expected c ∨ ∃ r woken, a = .wake t r ∧ b.pc t = .waiting c woken ∧
      (b.stop = true ∨ r = .zero ∨ c ≠ b.condCycle) := by
  obtain ⟨hpc, hidle⟩ := hr
  have hne : b.pc t ≠ .idle := by
    rcases hpc with ⟨w, e⟩ | ⟨woken, e⟩ <;> rw [e] <;> nofun
  -- a step of another thread, or of none, leaves `t` where it is
  have hother : ∀ {u : T} {pc : Pc}, (b.goto u pc).pc t = .idle → t = u := by
    intro u pc h
    by_contra htu
    rw [goto_of_ne b pc htu] at h
    exact hne h
  cases hs with
  | @enter u ht hw =>
    by_cases htu : t = u
    · exact absurd (htu ▸ ht) hne
    · exact absurd ((arrive_of_ne b htu).symm.trans hidle) hne
  | @refuse u ht hw => exact absurd (hother hidle ▸ ht) hne
  | @die u w d ht hw =>
    cases @hother u .dead hidle
    rw [die_self] at hidle
    cases hidle
  | @last u d ht =>
    left
    by_cases htu : t = u
    · subst htu
      rcases hpc with ⟨w, e⟩ | ⟨woken, e⟩
      · cases ht.symm.trans e
        exact ht
      · rw [ht] at e
        cases e
    · rw [leave_of_ne b.advance htu] at hidle
      exfalso
      rcases hpc with ⟨w, e⟩ | ⟨woken, e⟩ <;> simp [Barrier.advance, e, Pc.wake] at hidle
  | @wait u w d ht hw hn =>
    cases hother hidle
    rw [goto_self] at hidle
    cases hidle
  | @again u woken ht hs =>
    cases hother hidle
    rw [goto_self] at hidle
    cases hidle
  | @back u r d woken ht hr =>
    right
    have htu : t = u := by
      by_contra htu
      rw [leave_of_ne b htu] at hidle
      exact hne hidle
    subst htu
    rcases hpc with ⟨w, e⟩ | ⟨woken', e⟩
    · rw [ht] at e
      cases e
    · cases ht.symm.trans e
      exact ⟨r, woken, rfl, ht, hr⟩
  | stop => exact absurd hidle hne
  | cyclicCheck hw => exact absurd hidle hne
  | cyclicSet hc => exact absurd hidle hne

theorem Step.arrived_le (hs : Step b a b') (c : Nat) : b.arrived c ≤ b'.arrived c := by
  cases hs with
  | @enter t ht hw =>
    show b.arrived c ≤ Function.update b.arrived b.condCycle (b.arrived b.condCycle + 1) c
    by_cases hc : c = b.condCycle
    · subst hc
      rw [Function.update_self]
      exact Nat.le_succ _
    · rw [Function.update_of_ne hc]
  | _ => exact Nat.le_refl _

theorem Step.stop_of_stop (hs : Step b a b') (h : b.stop = true) : b'.stop = true := by
  cases hs <;> first | rfl | exact h

/-- In a run without spurious wakeups, a call that returns while neither `vtc_stop` nor
`vtc_error` is set has been in a cycle with as many calls as the barrier expects. -/
theorem opens_only_full (n : Nat) (cyclic : Bool) (l : List (Act T)) (b b' : Barrier T) (a : Act T)
    (t : T) (c : Nat) (hal : Along step NotSpurious { expected := n, cyclic := cyclic } (l ++ [a]))
    (hrun : run step { expected := n, cyclic := cyclic } l = .ok b) (hs : step b a = .ok b')
    (hret : Returns b b' t c) (hstop : b'.stop = false) : n ≤ b'.arrived c := by
  obtain ⟨hi, he⟩ := run_inv l hrun
  have hok := ((Along.snoc_iff l a _).mp hal).2 b hrun
  have hst := step_cases hs
  refine Nat.le_trans ?_ (hst.arrived_le c)
  rw [← he]
  rcases hst.returns hret with ht | ⟨r, woken, rfl, ht, hr⟩
  · obtain ⟨rfl, hc⟩ := hi.arrived_last ht
    exact Nat.le_of_eq hc.symm
  · have hw := hi.waiting t c woken ht
    apply hi.full
    rcases hr with hr | rfl | hr
    · rw [hst.stop_of_stop hr] at hstop
      cases hstop
    · exact hw.2 (hok c woken ht)
    · exact Nat.lt_of_le_of_ne hw.1 hr

/-- Two threads: the first one waits, the second one opens the barrier. -/
def twoCalls : List (Act Bool) := [.enter false, .proceed false, .enter true, .proceed true]

theorem opens_only_full_two :
    ∃ b b' : Barrier Bool, run step { expected := 2, cyclic := true } twoCalls = .ok b ∧
      step b (.wake false .zero) = .ok b' ∧ Returns b b' false 0 ∧ 2 ≤ b'.arrived 0 := by
  have hret : ∀ b b' : Barrier Bool, run step { expected := 2, cyclic := true } twoCalls = .ok b →
      step b (.wake false .zero) = .ok b' → Returns b b' false 0 ∧ b'.stop = false := by
    intro b b' h h'
    cases h
    cases h'
    exact ⟨⟨.inr ⟨true, rfl⟩, rfl⟩, rfl⟩
  refine ⟨_, _, rfl, rfl, (hret _ _ rfl rfl).1, ?_⟩
  refine opens_only_full 2 true twoCalls _ _ (.wake false .zero) false 0 ?_ rfl rfl
    (hret _ _ rfl rfl).1 (hret _ _ rfl rfl).2
  rw [Along.snoc_iff]
  refine ⟨.of_forall (by simp [twoCalls, NotSpurious]) _, fun b h => ?_⟩
  cases h
  rintro c woken ⟨⟩
  rfl

/-- With a spurious wakeup the first of two callers returns alone. -/
theorem spurious_wakeup_opens :
    ∃ b b' : Barrier Bool,
      run step { expected := 2, cyclic := true } [.enter false, .proceed false] = .ok b ∧
      step b (.wake false .zero) = .ok b' ∧ Returns b b' false 0 ∧ b'.stop = false ∧
      b'.arrived 0 = 1 :=
  ⟨_, _, rfl, rfl, ⟨.inr ⟨false, rfl⟩, rfl⟩, rfl, rfl⟩

end Barriers
end VTest
