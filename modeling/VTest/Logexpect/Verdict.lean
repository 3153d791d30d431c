import VTest.Logexpect.Sound

/-!
# VTest.Logexpect.Verdict

What `-err` does to the verdict of a run. `logexp_thread` looks at `err_arg` only after a record
has failed the tests, so that a run that meets all of them ends well with `-err` too: `-err`
inverts the verdict of the runs that violate the tests, and of no others.
-/

namespace VTest
namespace Logexpect

variable {Vre : Type} {vreMatch : Vre → Bytes → Bool} {tests : List (Test Vre)}
  {le : Logexp Vre} {recs : List Record} {ch : Choice} {r : Record}

/-! ## Only the thread calls `vtc_fatal` -/

def NoFatal {α : Type} (x : Res α) : Prop := x ≠ .error .fatal

theorem noFatal_ok {α : Type} (a : α) : NoFatal (.ok a : Res α) := nofun

theorem NoFatal.bind {α β : Type} {x : Res α} {f : α → Res β} (hx : NoFatal x)
    (hf : ∀ a, NoFatal (f a)) : NoFatal (x >>= f) := by
  cases x with
  | error e => exact fun h => hx (congrArg Except.error (Except.error.inj h))
  | ok a => exact hf a

theorem noFatal_check (c : Bool) : NoFatal (check c) := by
  cases c <;> exact nofun

theorem noFatal_logexpWalk (rest : List (Test Vre)) :
    ∀ (le : Logexp Vre) (i : Nat), NoFatal (logexpWalk le i rest) := by
  induction rest with
  | nil => exact fun _ _ => noFatal_ok _
  | cons t rest ih =>
    intro le i
    unfold logexpWalk
    split
    · exact ih _ _
    · exact ih _ _
    · exact ih _ _
    · exact nofun
    · exact noFatal_ok _

theorem noFatal_logexpNext (le : Logexp Vre) : NoFatal (logexpNext le) := by
  unfold logexpNext
  split
  · split <;> exact noFatal_logexpWalk _ _ _
  · exact noFatal_logexpWalk _ _ _

theorem noFatal_logexpMatch (le : Logexp Vre) (r : Record) (i : Nat) :
    NoFatal (logexpMatch vreMatch le r i) := by
  unfold logexpMatch
  split
  · exact nofun
  · exact (noFatal_check _).bind fun _ => noFatal_ok _

theorem noFatal_logexpFailchk (le : Logexp Vre) (r : Record) :
    NoFatal (logexpFailchk vreMatch le r) := by
  have hloop : ∀ fs, NoFatal (failLoop vreMatch le r fs) := by
    intro fs
    induction fs with
    | nil => exact noFatal_ok _
    | cons f fs ih =>
      refine (noFatal_logexpMatch le r f).bind fun m => ?_
      cases m.1
      · exact noFatal_ok _
      · exact nofun
      · exact ih
  unfold logexpFailchk
  split
  · exact noFatal_ok _
  · exact hloop le.fail

theorem noFatal_dispatchRecord (le : Logexp Vre) (r : Record) :
    NoFatal (dispatchRecord vreMatch le r) := by
  refine (noFatal_logexpFailchk le r).bind fun m => ?_
  split
  · exact noFatal_ok _
  · exact (noFatal_check _).bind fun _ => noFatal_ok _
  · refine (noFatal_logexpMatch le r _).bind fun m => ?_
    cases m.1
    · exact (noFatal_logexpNext _).bind fun _ => noFatal_ok _
    · refine NoFatal.bind ?_ fun _ => noFatal_ok _
      unfold skipOne
      split <;> exact nofun
    · exact noFatal_ok _

theorem noFatal_dispatchLoop (rs : List Record) :
    ∀ le : Logexp Vre, NoFatal (dispatchLoop vreMatch le rs) := by
  induction rs with
  | nil => exact fun _ => noFatal_ok _
  | cons r rs ih =>
    intro le
    unfold dispatchLoop
    split
    · refine (noFatal_dispatchRecord le r).bind fun d => ?_
      split
      · exact ih _
      · exact noFatal_ok _
    · exact ih _

theorem noFatal_vslqDispatch (status : Int) (calls : List (List (List Record))) :
    ∀ le : Logexp Vre, NoFatal (vslqDispatch vreMatch le status calls) := by
  induction calls with
  | nil => exact fun _ => noFatal_ok _
  | cons pt calls ih =>
    intro le
    refine (noFatal_dispatchLoop _ le).bind fun d => ?_
    split
    · exact ih _
    · exact noFatal_ok _

/-! ## With and without `-err` -/

/-- Nothing but the log has a say: no stop, and no error of `VSLQ_Dispatch`, which returns 0 or 1
by itself. -/
def Quiet (polls : List Poll) : Prop :=
  ∀ p ∈ polls, p.stop = false ∧ (p.status = 0 ∨ p.status = 1)

/-- How a run without `-err` and the one with it can end together. -/
inductive Verdicts (vreMatch : Vre → Bytes → Bool) (tests : List (Test Vre))
    (recs : List Record) : Res (Logexp Vre) → Res (Logexp Vre) → Prop where
  | completed {le : Logexp Vre} (hc : Completed vreMatch tests recs) :
      Verdicts vreMatch tests recs (.ok le) (.ok le)
  | violated {le : Logexp Vre} (hv : Violated vreMatch tests recs) :
      Verdicts vreMatch tests recs (.error .fatal) (.ok le)
  | trapped {e : Trap} {x : Res (Logexp Vre)} (he : e ≠ .fatal) :
      Verdicts vreMatch tests recs (.error e) x

theorem threadLoop_turn {errArg : Bool} {p : Poll} {ps : List Poll} {d : Int × Logexp Vre}
    (hd : logexpDone le = false) (hstop : p.stop = false)
    (h : vslqDispatch vreMatch le p.status p.calls = .ok d) :
    threadLoop vreMatch errArg le (p :: ps) =
      if d.1 = 2 ∧ errArg then .ok d.2
      else if d.1 = 2 ∨ d.1 < 0 then .error .fatal
      else threadLoop vreMatch errArg d.2 ps := by
  simp only [threadLoop, hd, hstop, h, Bool.false_eq_true, if_false, ok_bind]

/-- Both runs see the same records, until one of them fails the tests. -/
theorem threadLoop_verdicts (hfr : Fresh tests) (polls : List Poll) (hq : Quiet polls) :
    ∀ {recs : List Record} {ch : Choice} {le : Logexp Vre},
      Progress vreMatch tests recs ch → Rep tests recs ch le →
      Verdicts vreMatch tests (recs ++ given polls) (threadLoop vreMatch false le polls)
        (threadLoop vreMatch true le polls) := by
  induction polls with
  | nil =>
    intro recs ch le hp hr
    cases hd : logexpDone le with
    | true =>
      rw [threadLoop_of_done [] hd, threadLoop_of_done [] hd]
      exact .completed (Completed.append ⟨recs, [], ch, by simp, hp, hr.done_iff.mp hd⟩)
    | false =>
      simp only [threadLoop, hd]
      exact .trapped (by simp)
  | cons p ps ih =>
    intro recs ch le hp hr
    obtain ⟨hstop, hst⟩ := hq p List.mem_cons_self
    cases hd : logexpDone le with
    | true =>
      rw [threadLoop_of_done _ hd, threadLoop_of_done _ hd]
      exact .completed (Completed.append ⟨recs, [], ch, by simp, hp, hr.done_iff.mp hd⟩)
    | false =>
      rw [given_cons, ← List.append_assoc]
      cases h1 : vslqDispatch vreMatch le p.status p.calls with
      | error e =>
        have he : e ≠ .fatal := by
          rintro rfl
          exact noFatal_vslqDispatch p.status p.calls le h1
        simp only [threadLoop, hd, hstop, h1, Bool.false_eq_true, if_false, error_bind]
        exact .trapped he
      | ok d =>
        have hreach := vslqDispatch_spec hfr p.calls hp hr hd h1
        rw [threadLoop_turn hd hstop h1, threadLoop_turn hd hstop h1]
        cases hreach with
        | more hp1 hr1 hd1 =>
          rw [if_neg (by omega), if_neg (by omega), if_neg (by omega), if_neg (by omega)]
          exact ih (fun q hq' => hq q (List.mem_cons_of_mem p hq')) hp1 hr1
        | done hc hd1 =>
          simp only [threadLoop_of_done ps hd1]
          exact .completed hc.append
        | failed hv hd1 =>
          exact .violated hv.append

variable (vreMatch) in
theorem logexpRun_verdicts (le : Logexp Vre) (polls : List Poll) (hq : Quiet polls) :
    Verdicts vreMatch (logexpClean le.tests) (given polls) (logexpRun vreMatch false le polls)
      (logexpRun vreMatch true le polls) := by
  rw [logexpRun_eq, logexpRun_eq]
  cases h1 : logexpNext (logexpStart le) with
  | error e =>
    refine .trapped ?_
    rintro rfl
    exact noFatal_logexpNext _ h1
  | ok le1 =>
    have hp : Progress vreMatch (logexpClean le.tests) [] [] := .nil
    exact threadLoop_verdicts (fresh_logexpClean le.tests) polls hq hp (logexpNext_start h1)

/-- Of the runs that get to a verdict, `-err` inverts those in which a record violates the tests,
and no others. -/
theorem err_inverts_iff_violated (le : Logexp Vre) (polls : List Poll) (hq : Quiet polls)
    (hv : (∃ le', logexpRun vreMatch false le polls = .ok le') ∨
      logexpRun vreMatch false le polls = .error .fatal) :
    ((∃ le', logexpRun vreMatch true le polls = .ok le') ↔
        logexpRun vreMatch false le polls = .error .fatal) ↔
      Violated vreMatch (logexpClean le.tests) (given polls) := by
  have h := logexpRun_verdicts vreMatch le polls hq
  generalize logexpRun vreMatch false le polls = plain at h hv
  generalize logexpRun vreMatch true le polls = withErr at h
  cases h with
  | completed hc =>
    obtain ⟨pre, post, ch, he, hp, hcomp⟩ := hc
    rw [he]
    simpa using hp.not_violated hcomp
  | violated hviol => simpa using hviol
  | trapped he =>
    rcases hv with ⟨_, hok⟩ | hfatal
    · cases hok
    · exact absurd (Except.error.inj hfatal) he

/-- `expect 0 * *`, which any record meets. -/
def anyTest : Logexp Unit := { tests := [{ skipMax := .num 0 }] }

/-- `expect 0 5 *`. -/
def vxidTest : Logexp Unit := { tests := [{ skipMax := .num 0, vxid := .is 5 }] }

def onePoll : List Poll := [{ calls := [[[⟨7, .other 1, [], true⟩]]] }]

theorem quiet_onePoll : Quiet onePoll := by
  simp [Quiet, onePoll]

theorem err_inverts_iff_violated_vxid :
    ((∃ le', logexpRun (fun _ _ => true) true vxidTest onePoll = .ok le') ↔
        logexpRun (fun _ _ => true) false vxidTest onePoll = .error .fatal) ↔
      Violated (fun _ _ => true) (logexpClean vxidTest.tests) (given onePoll) :=
  err_inverts_iff_violated vxidTest onePoll quiet_onePoll (.inr rfl)

/-- A run that meets its only test ends well, with `-err` and without. -/
theorem err_accepts_success :
    Quiet onePoll ∧ (∃ le', logexpRun (fun _ _ => true) false anyTest onePoll = .ok le') ∧
      ¬((∃ le', logexpRun (fun _ _ => true) true anyTest onePoll = .ok le') ↔
        logexpRun (fun _ _ => true) false anyTest onePoll = .error .fatal) := by
  refine ⟨quiet_onePoll, ⟨_, rfl⟩, fun h => ?_⟩
  have hf := h.mp ⟨_, rfl⟩
  cases hf

end Logexpect
end VTest
