import VTest.Barrier.Cond

/-!
# VTest.Barrier.Rounds

A cyclic barrier that is shared by as many threads as it expects.

The calls of cycle `c` are round `c`. No thread can be a round ahead of another one, because the
last number of a round is given out only when all threads have called (`RoundInv`). A thread that
is late for the broadcast of its round finds another `cond_cycle` when its wait times out.
-/

namespace VTest
namespace Barriers

variable {T : Type} [DecidableEq T] [Fintype T] {b b' : Barrier T} {a : Act T}

/-- The round of the call a thread is in. -/
def Pc.round : Pc → Option Nat
  | .entered _ c => some c
  | .waiting c _ => some c
  | _ => none

/-- The threads that are in a call of round `c`. -/
def Barrier.inRound (b : Barrier T) (c : Nat) : Finset T :=
  Finset.univ.filter fun t => (b.pc t).round = some c

omit [DecidableEq T] in
theorem mem_inRound {t : T} {c : Nat} : t ∈ b.inRound c ↔ (b.pc t).round = some c := by
  simp [Barrier.inRound]

/-- Neither `vtc_stop` nor `vtc_error` is set from outside, and no wakeup is spurious. -/
def Orderly (b : Barrier T) (a : Act T) : Prop := a ≠ .stop ∧ NotSpurious b a

structure RoundInv (b : Barrier T) : Prop extends Inv b where
  cyclic : b.cyclic = true
  running : b.stop = false
  crew : b.expected = Fintype.card T
  waiters_eq : b.waiters = (b.inRound b.condCycle).card
  alive : ∀ t, b.pc t ≠ .dead ∧ ∀ c, b.pc t ≠ .entered (-1) c
  idle : ∀ t, b.pc t = .idle → b.returned t = b.condCycle
  calling : ∀ t c, (b.pc t).round = some c → b.returned t = c ∧ b.condCycle ≤ c + 1

omit [DecidableEq T] in
theorem roundInv_init :
    RoundInv ({ expected := Fintype.card T, cyclic := true } : Barrier T) where
  toInv := inv_init _ _
  cyclic := rfl
  running := rfl
  crew := rfl
  waiters_eq := by simp [Barrier.inRound, Pc.round]
  alive := by simp
  idle := by simp
  calling := nofun

omit [DecidableEq T] in
theorem RoundInv.round_le (h : RoundInv b) {t : T} {c : Nat} (hr : (b.pc t).round = some c) :
    c ≤ b.condCycle := by
  cases hpc : b.pc t with
  | idle => simp [hpc, Pc.round] at hr
  | dead => simp [hpc, Pc.round] at hr
  | entered w d =>
    rw [hpc] at hr
    exact Option.some.inj hr ▸ (h.entered t w d hpc).1
  | waiting d woken =>
    rw [hpc] at hr
    exact Option.some.inj hr ▸ (h.waiting t d woken hpc).1

omit [DecidableEq T] in
/-- A full barrier has all threads in the round. -/
theorem RoundInv.all_in (h : RoundInv b) (hw : b.waiters = b.expected) (t : T) :
    (b.pc t).round = some b.condCycle := by
  have hcard : (b.inRound b.condCycle).card = Fintype.card T := by
    rw [← h.waiters_eq, hw, h.crew]
  rw [← mem_inRound, (Finset.card_eq_iff_eq_univ _).mp hcard]
  exact Finset.mem_univ t

omit [DecidableEq T] in
theorem RoundInv.room (h : RoundInv b) {t : T} (ht : b.pc t = .idle) : b.waiters < b.expected := by
  refine Nat.lt_of_le_of_ne h.le fun hw => ?_
  have := h.all_in hw t
  rw [ht] at this
  cases this

/-! ## Steps -/

omit [DecidableEq T] in
theorem inRound_of_round_eq (c : Nat) (h : ∀ u, (b'.pc u).round = (b.pc u).round) :
    b'.inRound c = b.inRound c := by
  ext u
  rw [mem_inRound, mem_inRound, h u]

theorem RoundInv.arrive (h : RoundInv b) {t : T} (ht : b.pc t = .idle) : RoundInv (b.arrive t) := by
  have hnew : (b.arrive t).inRound b.condCycle = insert t (b.inRound b.condCycle) := by
    ext u
    rw [Finset.mem_insert, mem_inRound, mem_inRound]
    by_cases hut : u = t
    · subst hut
      simp [arrive_self, Pc.round]
    · simp [arrive_of_ne b hut, hut]
  refine ⟨h.toInv.arrive t (h.room ht), h.cyclic, h.running, h.crew, ?_, fun u => ?_,
    fun u hu => ?_, fun u c hu => ?_⟩
  · show b.waiters + 1 = ((b.arrive t).inRound b.condCycle).card
    rw [hnew, Finset.card_insert_of_notMem, ← h.waiters_eq]
    rw [mem_inRound, ht]
    nofun
  · by_cases hut : u = t
    · subst hut
      rw [arrive_self]
      exact ⟨nofun, fun c e => by have := (Pc.entered.inj e).1; omega⟩
    · rw [arrive_of_ne b hut]
      exact h.alive u
  · by_cases hut : u = t
    · subst hut
      rw [arrive_self] at hu
      cases hu
    · rw [arrive_of_ne b hut] at hu
      exact h.idle u hu
  · by_cases hut : u = t
    · subst hut
      rw [arrive_self] at hu
      cases hu
      exact ⟨h.idle u ht, Nat.le_succ _⟩
    · rw [arrive_of_ne b hut] at hu
      exact h.calling u c hu

/-- A thread that goes on to its wait, or waits again. -/
theorem RoundInv.goto (h : RoundInv b) {t : T} {c : Nat} (hr : (b.pc t).round = some c)
    (hinv : Inv (b.goto t (.waiting c false))) : RoundInv (b.goto t (.waiting c false)) := by
  have hround : ∀ u, ((b.goto t (.waiting c false)).pc u).round = (b.pc u).round := by
    intro u
    by_cases hut : u = t
    · subst hut
      rw [goto_self, hr]
      rfl
    · rw [goto_of_ne b _ hut]
  refine ⟨hinv, h.cyclic, h.running, h.crew, ?_, fun u => ?_, fun u hu => ?_, fun u d hu => ?_⟩
  · show b.waiters = ((b.goto t (.waiting c false)).inRound b.condCycle).card
    rw [inRound_of_round_eq _ hround, h.waiters_eq]
  · by_cases hut : u = t
    · subst hut
      rw [goto_self]
      exact ⟨nofun, nofun⟩
    · rw [goto_of_ne b _ hut]
      exact h.alive u
  · by_cases hut : u = t
    · subst hut
      rw [goto_self] at hu
      cases hu
    · rw [goto_of_ne b _ hut] at hu
      exact h.idle u hu
  · rw [hround u] at hu
    exact h.calling u d hu

theorem wake_round (pc : Pc) : pc.wake.round = pc.round := by
  cases pc <;> rfl

/-- The last thread of a round opens the next one; all others are still in the round. -/
theorem RoundInv.advance (h : RoundInv b) {t : T} {c : Nat}
    (ht : b.pc t = .entered b.expected c) : RoundInv (b.advance.leave t) := by
  obtain ⟨hc, hw⟩ := (h.entered t _ c ht).2.2 rfl
  have hall := h.all_in hw
  have hround : ∀ u, u ≠ t → ((b.advance.leave t).pc u).round = some b.condCycle := by
    intro u hut
    rw [leave_of_ne b.advance hut, ← hall u]
    exact wake_round _
  have hret : ∀ u, u ≠ t → (b.advance.leave t).returned u = b.returned u :=
    fun u hut => Function.update_of_ne hut ..
  have hself : (b.advance.leave t).returned t = b.returned t + 1 := Function.update_self ..
  refine ⟨h.toInv.advance ht, h.cyclic, h.running, h.crew, ?_, fun u => ?_, fun u hu => ?_,
    fun u d hu => ?_⟩
  · have hnone : (b.advance.leave t).inRound (b.condCycle + 1) = ∅ := by
      refine Finset.eq_empty_of_forall_notMem fun u hu => ?_
      rw [mem_inRound] at hu
      by_cases hut : u = t
      · subst hut
        rw [leave_self] at hu
        cases hu
      · rw [hround u hut] at hu
        have := Option.some.inj hu
        omega
    show (if b.cyclic then 0 else b.waiters) = ((b.advance.leave t).inRound (b.condCycle + 1)).card
    rw [hnone, h.cyclic]
    rfl
  · by_cases hut : u = t
    · subst hut
      rw [leave_self]
      exact ⟨nofun, nofun⟩
    · have hpc : (b.advance.leave t).pc u = (b.pc u).wake := leave_of_ne b.advance hut
      rw [hpc]
      have hu := h.alive u
      cases hp : b.pc u <;> simp_all [Pc.wake]
  · by_cases hut : u = t
    · subst hut
      rw [hself, (h.calling u c (by rw [ht]; rfl)).1, hc]
      rfl
    · have := hround u hut
      rw [hu] at this
      cases this
  · by_cases hut : u = t
    · subst hut
      rw [leave_self] at hu
      cases hu
    · rw [hround u hut] at hu
      cases hu
      rw [hret u hut]
      exact ⟨(h.calling u b.condCycle (hall u)).1, Nat.le_refl _⟩

/-- A thread of a round that is over returns. -/
theorem RoundInv.leave (h : RoundInv b) {t : T} {c : Nat} (hr : (b.pc t).round = some c)
    (hc : c < b.condCycle) : RoundInv (b.leave t) := by
  have hcall := h.calling t c hr
  have hret : ∀ u, u ≠ t → (b.leave t).returned u = b.returned u :=
    fun u hut => Function.update_of_ne hut ..
  have hself : (b.leave t).returned t = b.returned t + 1 := Function.update_self ..
  refine ⟨h.toInv.leave t, h.cyclic, h.running, h.crew, ?_, fun u => ?_, fun u hu => ?_,
    fun u d hu => ?_⟩
  · have hsame : (b.leave t).inRound b.condCycle = b.inRound b.condCycle := by
      ext u
      rw [mem_inRound, mem_inRound]
      by_cases hut : u = t
      · subst hut
        rw [leave_self, hr]
        simp [Pc.round]
        omega
      · rw [leave_of_ne b hut]
    show b.waiters = ((b.leave t).inRound b.condCycle).card
    rw [hsame, h.waiters_eq]
  · by_cases hut : u = t
    · subst hut
      rw [leave_self]
      exact ⟨nofun, nofun⟩
    · rw [leave_of_ne b hut]
      exact h.alive u
  · by_cases hut : u = t
    · subst hut
      rw [hself, hcall.1]
      show c + 1 = b.condCycle
      omega
    · rw [hret u hut]
      rw [leave_of_ne b hut] at hu
      exact h.idle u hu
  · by_cases hut : u = t
    · subst hut
      rw [leave_self] at hu
      cases hu
    · rw [leave_of_ne b hut] at hu
      rw [hret u hut]
      exact h.calling u d hu

theorem Step.roundInv (hs : Step b a b') (h : RoundInv b) (hok : Orderly b a) : RoundInv b' := by
  have hinv := hs.inv h.toInv
  cases hs with
  | enter ht hw => exact h.arrive ht
  | refuse ht hw => exact absurd hw (Nat.ne_of_lt (h.room ht))
  | @die t w c ht hw =>
    rcases (h.entered t w c ht).2.1 with rfl | hw'
    · exact absurd ht ((h.alive t).2 c)
    · omega
  | last ht => exact h.advance ht
  | wait ht hw hne => exact h.goto (by rw [ht]; rfl) hinv
  | again ht hs => exact h.goto (by rw [ht]; rfl) hinv
  | @back t r c woken ht hr =>
    refine h.leave (by rw [ht]; rfl) ?_
    have hw := h.waiting t c woken ht
    rcases hr with hr | rfl | hr
    · rw [h.running] at hr
      cases hr
    · exact hw.2 (hok.2 c woken ht)
    · exact Nat.lt_of_le_of_ne hw.1 hr
  | stop => exact absurd rfl hok.1
  | cyclicCheck hw =>
    exact ⟨hinv, h.cyclic, h.running, h.crew, h.waiters_eq, h.alive, h.idle, h.calling⟩
  | cyclicSet hc =>
    exact ⟨hinv, rfl, h.running, h.crew, h.waiters_eq, h.alive, h.idle, h.calling⟩

/-! ## Runs -/

theorem run_roundInv (l : List (Act T))
    (hal : Along step Orderly { expected := Fintype.card T, cyclic := true } l)
    (h : run step ({ expected := Fintype.card T, cyclic := true } : Barrier T) l = .ok b) :
    RoundInv b :=
  run_preserves (fun _ _ _ hi hok hs => (step_cases hs).roundInv hi hok) l _ b roundInv_init hal h

omit [DecidableEq T] in
/-- A thread has returned from all rounds that are over, or from all but the last of them. -/
theorem RoundInv.returned_bounds (h : RoundInv b) (t : T) :
    b.returned t ≤ b.condCycle ∧ b.condCycle ≤ b.returned t + 1 := by
  cases hr : (b.pc t).round with
  | some c =>
    obtain ⟨hret, hle⟩ := h.calling t c hr
    have := h.round_le hr
    omega
  | none =>
    have hidle : b.pc t = .idle := by
      have := (h.alive t).1
      cases hp : b.pc t <;> simp_all [Pc.round]
    have := h.idle t hidle
    omega

/-- A cyclic barrier whose callers are as many threads as it expects refuses none of them, keeps
its assertion and loses no wakeup: after the last caller of round `k` has opened the barrier, a
thread that is still in round `k` finds another `cond_cycle` and returns when its wait times out.
No two threads are more than one round apart. -/
theorem cyclic_rounds_in_step (l : List (Act T)) (b : Barrier T)
    (hal : Along step Orderly { expected := Fintype.card T, cyclic := true } l)
    (hrun : run step { expected := Fintype.card T, cyclic := true } l = .ok b) :
    (∀ t, b.pc t ≠ .dead ∧ ∀ c, b.pc t ≠ .entered (-1) c) ∧
    (∀ a, step b a ≠ .error .assert) ∧
    (∀ l1 t l2 b1 k, l = l1 ++ .proceed t :: l2 →
      run step { expected := Fintype.card T, cyclic := true } l1 = .ok b1 →
      b1.pc t = .entered b1.expected k →
      ∀ u, (b.pc u).round = some k → b.condCycle ≠ k ∧
        ∀ woken, b.pc u = .waiting k woken →
          ∃ b', step b (.wake u .timedout) = .ok b' ∧ b'.pc u = .idle) ∧
    ∀ t u, b.returned t ≤ b.returned u + 1 := by
  have hi := run_roundInv l hal hrun
  refine ⟨hi.alive, hi.toInv.step_ne_assert, ?_, fun t u => ?_⟩
  · intro l1 t l2 b1 k hl hrun1 ht u hu
    have hne : b.condCycle ≠ k := by
      rw [hl, run_append, hrun1, ok_bind, run_cons] at hrun
      obtain ⟨b2, h2, hrun2⟩ := bind_eq_ok.mp hrun
      have hk := ((run_inv l1 hrun1).1.arrived_last ht).1
      have hcyc : b2.condCycle = b1.condCycle + 1 := by
        cases step_cases h2 with
        | die ht' hw =>
          rw [ht] at ht'
          have := (Pc.entered.inj ht').1
          omega
        | last _ => rfl
        | wait ht' _ hne =>
          rw [ht] at ht'
          exact absurd (Pc.entered.inj ht').1.symm hne
      have := run_condCycle_le l2 hrun2
      omega
    refine ⟨hne, fun woken hw => ⟨_, step_timedout hw hne, leave_self b u⟩⟩
  · have ht := hi.returned_bounds t
    have hu := hi.returned_bounds u
    omega

theorem cyclic_rounds_in_step_two :
    ∃ b : Barrier Bool,
      run step { expected := Fintype.card Bool, cyclic := true } twoCalls = .ok b ∧
      (∀ t, b.pc t ≠ .dead ∧ ∀ c, b.pc t ≠ .entered (-1) c) ∧
      ∀ t u, b.returned t ≤ b.returned u + 1 := by
  obtain ⟨halive, -, -, happart⟩ := cyclic_rounds_in_step twoCalls _
    (.of_forall (by simp [twoCalls, Orderly, NotSpurious]) _) rfl
  exact ⟨_, rfl, halive, happart⟩

end Barriers
end VTest
