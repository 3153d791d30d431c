import Mathlib

/-!
# VTest.Lib.Pool

Work that is handed out a few pieces at a time: what is still to be started, what is running, what
is done. A piece may be there several times, so the three are multisets.

* `Pool.Runs.work_eq`: no piece is lost or handed out twice, in every run.
* `Pool.Runs.card_live_le`: never more than `cap` pieces are running.
* `Pool.Runs.done_eq`: when nothing is left and nothing is running, all of the work is done.
-/

namespace VTest

variable {ι : Type}

structure Pool (ι : Type) where
  todo : Multiset ι
  live : Multiset ι
  done : Multiset ι

namespace Pool

/-- A piece is started, if fewer than `cap` are running, or a running piece is finished. -/
inductive Step (cap : ℕ) : Pool ι → Pool ι → Prop where
  | start {t : ι} {todo live done : Multiset ι} (h : live.card < cap) :
      Step cap ⟨t ::ₘ todo, live, done⟩ ⟨todo, t ::ₘ live, done⟩
  | finish {t : ι} {todo live done : Multiset ι} :
      Step cap ⟨todo, t ::ₘ live, done⟩ ⟨todo, live, t ::ₘ done⟩

theorem Step.of_start {cap : ℕ} {p q : Pool ι} {t : ι} (ht : p.todo = t ::ₘ q.todo)
    (hl : q.live = t ::ₘ p.live) (hd : q.done = p.done) (h : p.live.card < cap) : Step cap p q := by
  obtain ⟨todo, live, done⟩ := p
  obtain ⟨todo', live', done'⟩ := q
  simp only at ht hl hd
  subst ht hl hd
  exact .start h

theorem Step.of_finish {cap : ℕ} {p q : Pool ι} {t : ι} (ht : q.todo = p.todo)
    (hl : p.live = t ::ₘ q.live) (hd : q.done = t ::ₘ p.done) : Step cap p q := by
  obtain ⟨todo, live, done⟩ := p
  obtain ⟨todo', live', done'⟩ := q
  simp only at ht hl hd
  subst ht hl hd
  exact .finish

/-- What can be reached when nothing of `work` has been started yet. -/
def Runs (cap : ℕ) (work : Multiset ι) (p : Pool ι) : Prop :=
  Relation.ReflTransGen (Step cap) ⟨work, 0, 0⟩ p

variable {cap : ℕ} {work : Multiset ι} {p q : Pool ι}

theorem Runs.refl : Runs cap work ⟨work, 0, 0⟩ := Relation.ReflTransGen.refl

theorem Runs.step (h : Runs cap work p) (hs : Step cap p q) : Runs cap work q :=
  Relation.ReflTransGen.tail h hs

theorem Runs.work_eq (h : Runs cap work p) : p.todo + p.live + p.done = work := by
  induction h with
  | refl => simp
  | tail _ hs ih =>
    rw [← ih]
    cases hs with
    | start => simp
    | finish => simp

theorem Runs.card_live_le (h : Runs cap work p) : p.live.card ≤ cap := by
  induction h with
  | refl => simp
  | tail _ hs ih =>
    cases hs with
    | start hlt =>
      rw [Multiset.card_cons]
      exact hlt
    | finish =>
      rw [Multiset.card_cons] at ih
      exact Nat.le_of_succ_le ih

theorem Runs.done_eq (h : Runs cap work p) (ht : p.todo = 0) (hl : p.live = 0) : p.done = work := by
  have := h.work_eq
  rwa [ht, hl, zero_add, zero_add] at this

end Pool

end VTest
