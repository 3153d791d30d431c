import VTest.Logexpect.Sound

/-!
# VTest.Logexpect.Rerun

A `logexpect` that is run again.

A run marks alternatives, links fail specifications, and moves the cursor, `skip_cnt` and the last
record. Of all this only the marks stand in the list of tests, and `logexp_clean` takes them off:
what it makes of the list is the same at every moment of every run. The rest is set anew by
`logexp_start` and by the first `logexp_next` of the thread.

* `rerun_as_first`: a run decides and ends as the first run would have, whatever ran before it and
  wherever that was stopped.
-/

namespace VTest
namespace Logexpect

variable {Vre : Type}

/-! ## What a run decides -/

section

variable (vreMatch : Vre → Bytes → Bool)

/-- What `logexp_dispatch` decides about a record: a fail specification matches, or what
`logexp_match` says; nothing, where no test is left. -/
def decision (le : Logexp Vre) (r : Record) : Res (Option LeMatch) := do
  let m ← logexpFailchk vreMatch le r
  match m, le.test with
  | .fail, _ => .ok (some .fail)
  | _, none => .ok none
  | _, some i => do
    let m ← logexpMatch vreMatch le r i
    .ok (some m.1)

/-- The decisions of one call of `logexp_dispatch`, the last one included. -/
def dispatchTrace (le : Logexp Vre) : List Record → List (Res (Option LeMatch))
  | [] => []
  | r :: rs =>
    if r.shown then
      decision vreMatch le r ::
        match dispatchRecord vreMatch le r with
        | .ok (0, le) => dispatchTrace le rs
        | _ => []
    else dispatchTrace le rs

def vslqTrace (le : Logexp Vre) : List (List (List Record)) → List (Res (Option LeMatch))
  | [] => []
  | pt :: calls =>
    dispatchTrace vreMatch le pt.flatten ++
      match logexpDispatch vreMatch le pt with
      | .ok (0, le) => vslqTrace le calls
      | _ => []

def threadTrace (le : Logexp Vre) : List Poll → List (Res (Option LeMatch))
  | [] => []
  | p :: ps =>
    if logexpDone le || p.stop then []
    else
      vslqTrace vreMatch le p.calls ++
        match vslqDispatch vreMatch le p.status p.calls with
        | .ok (c, le) => if c = 2 ∨ c < 0 then [] else threadTrace le ps
        | .error _ => []

/-- The decisions of a run, in their order. -/
def runTrace (le : Logexp Vre) (polls : List Poll) : List (Res (Option LeMatch)) :=
  match logexpNext (logexpStart le) with
  | .ok le => threadTrace vreMatch le polls
  | .error _ => []

/-- The states that runs from `le` come by, each run stopped anywhere. -/
inductive Ran (le : Logexp Vre) : Logexp Vre → Prop where
  | new : Ran le le
  | start {le1 le2 : Logexp Vre} : Ran le le1 → logexpNext (logexpStart le1) = .ok le2 → Ran le le2
  | record {le1 le2 : Logexp Vre} {r : Record} {c : Int} :
      Ran le le1 → dispatchRecord vreMatch le1 r = .ok (c, le2) → Ran le le2

end

variable {vreMatch : Vre → Bytes → Bool}

/-! ## The ends of a run -/

theorem Ran.dispatchLoop {le le1 le2 : Logexp Vre} {rs : List Record} {c : Int}
    (h : Ran vreMatch le le1) (hd : dispatchLoop vreMatch le1 rs = .ok (c, le2)) :
    Ran vreMatch le le2 := by
  induction rs generalizing le1 with
  | nil =>
    cases hd
    exact h
  | cons r rs ih =>
    rw [Logexpect.dispatchLoop] at hd
    split at hd
    · obtain ⟨⟨c1, le'⟩, h1, hd⟩ := bind_eq_ok.mp hd
      have hran := h.record h1
      dsimp only at hd
      split at hd
      · exact ih hran hd
      · cases hd
        exact hran
    · exact ih h hd

theorem Ran.vslqDispatch {le le1 le2 : Logexp Vre} {status c : Int}
    {calls : List (List (List Record))} (h : Ran vreMatch le le1)
    (hd : vslqDispatch vreMatch le1 status calls = .ok (c, le2)) : Ran vreMatch le le2 := by
  induction calls generalizing le1 with
  | nil =>
    cases hd
    exact h
  | cons pt calls ih =>
    rw [Logexpect.vslqDispatch] at hd
    obtain ⟨⟨c1, le'⟩, h1, hd⟩ := bind_eq_ok.mp hd
    have hran := h.dispatchLoop h1
    dsimp only at hd
    split at hd
    · exact ih hran hd
    · cases hd
      exact hran

theorem Ran.threadLoop {le le1 le2 : Logexp Vre} {errArg : Bool} {polls : List Poll}
    (h : Ran vreMatch le le1) (hd : threadLoop vreMatch errArg le1 polls = .ok le2) :
    Ran vreMatch le le2 := by
  induction polls generalizing le1 with
  | nil =>
    rw [Logexpect.threadLoop] at hd
    split at hd
    · cases hd
      exact h
    · cases hd
  | cons p ps ih =>
    rw [Logexpect.threadLoop] at hd
    split at hd
    · cases hd
      exact h
    split at hd
    · cases hd
    obtain ⟨⟨c, le'⟩, h1, hd⟩ := bind_eq_ok.mp hd
    have hran := h.vslqDispatch h1
    dsimp only at hd
    split at hd
    · cases hd
      exact hran
    split at hd
    · cases hd
    · exact ih hran hd

/-- A run that returns, with success or with the failure that `-err` asks for. -/
theorem Ran.run {le le1 : Logexp Vre} {errArg : Bool} {polls : List Poll}
    (h : logexpRun vreMatch errArg le polls = .ok le1) : Ran vreMatch le le1 := by
  rw [logexpRun_eq] at h
  obtain ⟨le', h1, h⟩ := bind_eq_ok.mp h
  exact (Ran.new.start h1).threadLoop h

/-! ## What stays in the list of tests -/

theorem logexpWalk_tests {le le' : Logexp Vre} {n : Nat} {l : List (Test Vre)}
    (h : logexpWalk le n l = .ok le') : le'.tests = le.tests := by
  induction l generalizing le n with
  | nil =>
    cases h
    rfl
  | cons t l ih =>
    unfold logexpWalk at h
    split at h
    · exact ih h
    · have htests := ih h
      exact htests
    · have htests := ih h
      exact htests
    · cases h
    · cases h
      rfl

theorem logexpClean_idem (l : List (Test Vre)) : logexpClean (logexpClean l) = logexpClean l := by
  rw [logexpClean, logexpClean, List.map_map]
  apply List.map_congr_left
  intro t _
  by_cases ht : t.skipMax = .seen <;> simp [ht]

/-- `logexp_next` keeps the list, but for the marks that it takes off at the start of a run. -/
theorem logexpNext_clean {le le' : Logexp Vre} (h : logexpNext le = .ok le') :
    logexpClean le'.tests = logexpClean le.tests := by
  rw [logexpNext] at h
  split at h
  · split at h
    · rw [logexpWalk_tests h]
    · rw [logexpWalk_tests h]
  · rw [logexpWalk_tests h]
    exact logexpClean_idem le.tests

/-- An alternative is marked; the mark comes off again. -/
theorem mark_clean {le : Logexp Vre} {i : Nat} {t : Test Vre} {rest : List (Test Vre)}
    (hdrop : le.tests.drop i = t :: rest) (ht : t.skipMax = .alt) :
    logexpClean (le.mark i).tests = logexpClean le.tests := by
  have hget := get_of_drop hdrop
  apply List.ext_getElem?
  intro j
  simp only [logexpClean, Logexp.mark, List.getElem?_map, List.getElem?_modify]
  by_cases hij : i = j
  · subst hij
    rw [hget.1]
    cases t
    simp_all
  · cases le.tests[j]? <;> simp [hij]

theorem logexpAlt_clean (le : Logexp Vre) (r : Record) (l : List (Test Vre)) :
    ∀ i, le.tests.drop i = l →
      logexpClean (logexpAlt vreMatch le r i l).2.tests = logexpClean le.tests := by
  induction l with
  | nil => exact fun _ _ => rfl
  | cons t l ih =>
    intro i hdrop
    have hnext : le.tests.drop (i + 1) = l := (get_of_drop hdrop).2
    unfold logexpAlt
    split
    · exact ih (i + 1) hnext
    · rename_i halt
      split
      · exact mark_clean hdrop halt
      · exact ih (i + 1) hnext
    · rfl

theorem logexpMatch_clean {le : Logexp Vre} {r : Record} {i : Nat} {m : LeMatch × Logexp Vre}
    (h : logexpMatch vreMatch le r i = .ok m) : logexpClean m.2.tests = logexpClean le.tests := by
  rw [logexpMatch] at h
  split at h
  · cases h
  · rename_i t rest hdrop
    obtain ⟨_, h⟩ := check_bind_eq_ok.mp h
    cases h
    rw [matchTest]
    split
    · dsimp only
      split
      · rename_i halt
        exact mark_clean hdrop halt
      · rfl
    · split
      · exact logexpAlt_clean le r rest (i + 1) (get_of_drop hdrop).2
      · split <;> rfl

theorem skipOne_tests {le le' : Logexp Vre} (h : skipOne le = .ok le') :
    le'.tests = le.tests := by
  rw [skipOne] at h
  split at h
  · cases h
    rfl
  · cases h

theorem matchRecord_clean {le le' : Logexp Vre} {r : Record} {i : Nat} {c : Int}
    (h : matchRecord vreMatch le r i = .ok (c, le')) :
    logexpClean le'.tests = logexpClean le.tests := by
  rw [matchRecord] at h
  obtain ⟨⟨m, le1⟩, hm, h⟩ := bind_eq_ok.mp h
  have hclean := logexpMatch_clean hm
  cases m with
  | fail =>
    cases h
    exact hclean
  | skip =>
    obtain ⟨le2, hs, h⟩ := bind_eq_ok.mp h
    cases h
    rw [skipOne_tests hs]
    exact hclean
  | ok =>
    obtain ⟨le2, hn, h⟩ := bind_eq_ok.mp h
    cases h
    rw [logexpNext_clean hn]
    exact hclean

theorem dispatchRecord_clean {le le' : Logexp Vre} {r : Record} {c : Int}
    (h : dispatchRecord vreMatch le r = .ok (c, le')) :
    logexpClean le'.tests = logexpClean le.tests := by
  rw [dispatchRecord] at h
  obtain ⟨m, _, h⟩ := bind_eq_ok.mp h
  split at h
  · cases h
    rfl
  · obtain ⟨_, h⟩ := check_bind_eq_ok.mp h
    cases h
    rfl
  · exact matchRecord_clean h

theorem Ran.clean_eq {le le1 : Logexp Vre} (h : Ran vreMatch le le1) :
    logexpClean le1.tests = logexpClean le.tests := by
  induction h with
  | new => rfl
  | start _ hs ih => rw [logexpNext_clean hs]; exact ih
  | record _ hr ih => rw [dispatchRecord_clean hr]; exact ih

/-! ## The run after it -/

/-- A run starts from the cleaned list and from nothing else. -/
theorem logexpNext_start_clean (le : Logexp Vre) :
    logexpNext (logexpStart le) =
      logexpWalk { tests := logexpClean le.tests } 0 (logexpClean le.tests) := rfl

/-- **A run is like the first one**, after any number of runs over other records, each of which
came to an end or was stopped after any of its records. -/
theorem rerun_as_first (le : Logexp Vre) :
    (∀ errArg polls le1, logexpRun vreMatch errArg le polls = .ok le1 → Ran vreMatch le le1) ∧
      ∀ le1, Ran vreMatch le le1 → ∀ errArg polls,
        runTrace vreMatch le1 polls = runTrace vreMatch le polls ∧
          logexpRun vreMatch errArg le1 polls = logexpRun vreMatch errArg le polls := by
  refine ⟨fun errArg polls le1 h => .run h, fun le1 h errArg polls => ?_⟩
  have hstart : logexpNext (logexpStart le1) = logexpNext (logexpStart le) := by
    rw [logexpNext_start_clean, logexpNext_start_clean, h.clean_eq]
  constructor
  · rw [runTrace, runTrace, hstart]
  · rw [logexpRun_eq, logexpRun_eq, hstart]

/-- A run of `blockTests` cut off after the record of the second alternative: that one is marked,
and the fail specification is active. -/
def cutOff : Logexp Unit :=
  { tests := blockTests.modify 2 fun t => { t with skipMax := .seen },
    test := some 1, last := ⟨some 7, some (.other 2)⟩, fail := [0] }

theorem rerun_as_first_cut_off :
    logexpRun (fun _ _ => true) false cutOff blockPolls =
      logexpRun (fun _ _ => true) false { tests := blockTests } blockPolls := by
  have hcut : Ran (fun _ _ => true) { tests := blockTests } cutOff :=
    .record (r := ⟨7, .other 2, [], true⟩) (.start .new rfl) rfl
  exact ((rerun_as_first { tests := blockTests }).2 cutOff hcut false blockPolls).2

end Logexpect
end VTest
