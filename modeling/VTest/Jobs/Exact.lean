import VTest.Lib.Pool
import VTest.Jobs.Model

/-!
# VTest.Jobs.Exact

The main loop is a pool of work: every file is run as often as `-n` says, and never more than `-j`
tests at a time.

* `Inv` is what holds at each head of the loop; `Inv.turn` is its step.
* `turn_refines`: a turn of the loop is a step of the pool `pool s`, or changes nothing in it.
* `Inv.no_trap`: no turn fails an assertion or follows a pointer to something freed.
-/

namespace VTest
namespace Jobs

/-! ## What the invariant is about -/

/-- How often the test is still to be started. -/
def St.todoOf (s : St) (t : Nat) : Nat := (s.tst? t).elim 0 Tst.ntodo

/-- The tests of the running jobs. -/
def St.live (s : St) : List Nat := s.jobs.map Job.tst

def St.ids (s : St) : List Nat := s.jobs.map Job.id

/-- The state of the work. -/
def pool (s : St) : Pool Nat where
  todo := ∑ t ∈ Finset.range s.tsts.length, Multiset.replicate (s.todoOf t) t
  live := s.live
  done := s.ended

structure Inv (files : List (Bytes × Bytes)) (skips : Nat) (s : St) : Prop where
  ids : s.ids.Nodup
  fresh : ∀ j ∈ s.ids, j < s.nextJob
  evNodup : s.events.Nodup
  ev : ∀ e, e ∈ s.events ↔ e.job ∈ s.ids
  njob : s.njob = s.live.length
  wait : ∀ t tp, s.tst? t = some tp → tp.nwait = tp.ntodo + s.live.count t ∧ 0 < tp.nwait
  freed : ∀ t, s.tst? t = none → t ∉ s.live
  len : s.tsts.length = files.length
  file : ∀ t tp, s.tst? t = some tp → files[t]? = some (tp.filename, tp.script)
  queueNodup : s.tstHead.Nodup
  queue : ∀ t, t ∈ s.tstHead ↔ 0 < s.todoOf t
  idle : s.i = 0 → s.live = []
  counted : s.vtcGood + s.vtcFail + s.vtcSkip = skips + s.ended.length
  forked : (s.forked : Multiset Nat) = s.live + s.ended

theorem lt_of_tst? {s : St} {t : Nat} {tp : Tst} (h : s.tst? t = some tp) : t < s.tsts.length := by
  rw [St.tst?, Option.join_eq_some_iff] at h
  exact (List.getElem?_eq_some_iff.mp h).1

/-- Storing to one test leaves the others. -/
theorem tst?_set {l : List (Option Tst)} {t : Nat} (ht : t < l.length) (o : Option Tst) (u : Nat) :
    ((l.set t o)[u]?).join = if u = t then o else (l[u]?).join := by
  by_cases hu : u = t
  · subst hu
    rw [if_pos rfl, List.getElem?_set_self ht]
    rfl
  · rw [if_neg hu, List.getElem?_set_ne (Ne.symm hu)]

theorem count_todo (s : St) (t : Nat) : (pool s).todo.count t = s.todoOf t := by
  have hsum : (pool s).todo.count t =
      ∑ u ∈ Finset.range s.tsts.length, if u = t then s.todoOf u else 0 := by
    rw [pool, Multiset.count_sum']
    refine Finset.sum_congr rfl fun u _ => ?_
    rw [Multiset.count_replicate]
  rw [hsum, Finset.sum_ite_eq']
  split
  · rfl
  · rename_i h
    rw [Finset.mem_range, Nat.not_lt] at h
    rw [St.todoOf, St.tst?, List.getElem?_eq_none h]
    rfl

/-- With distinct keys, taking out a key takes out one element. -/
theorem perm_filter_ne {α β : Type} [DecidableEq β] {f : α → β} {l : List α} {a : α}
    (ha : a ∈ l) (hl : (l.map f).Nodup) : l.Perm (a :: l.filter (f · ≠ f a)) := by
  induction l with
  | nil => cases ha
  | cons b l ih =>
    rw [List.map_cons, List.nodup_cons] at hl
    rcases List.mem_cons.mp ha with rfl | ha
    · have hrest : l.filter (f · ≠ f a) = l := by
        refine List.filter_eq_self.mpr fun x hx => ?_
        have : f x ≠ f a := fun e => hl.1 (e ▸ List.mem_map_of_mem hx)
        simpa using this
      rw [List.filter_cons_of_neg (by simp), hrest]
    · have hne : f b ≠ f a := fun e => hl.1 (e ▸ List.mem_map_of_mem ha)
      rw [List.filter_cons_of_pos (by simpa using hne)]
      exact ((ih ha hl.2).cons b).trans (List.Perm.swap a b _)

/-! ## What a turn does -/

/-- After `start_test` for the test `t` at the head of the queue. -/
def started (s : St) (t : Nat) (rest : List Nat) (tp : Tst) : St :=
  { s with
    tsts := s.tsts.set t (some { tp with ntodo := tp.ntodo - 1 })
    tstHead := if 0 < tp.ntodo - 1 then rest ++ [t] else rest
    jobs := s.jobs ++ [⟨s.nextJob, t, false⟩]
    events := s.events ++ [⟨.ev, s.nextJob⟩, ⟨.evt, s.nextJob⟩]
    nextJob := s.nextJob + 1
    njob := s.njob + 1
    i := 1
    forked := s.forked ++ [t] }

/-- After the end of the job `jp`, with new counters. -/
def jobOver (s : St) (jp : Job) (tp : Tst) (good fail skip : Nat) : St :=
  { s with
    tsts := s.tsts.set jp.tst
      (if tp.nwait - 1 = 0 then none else some { tp with nwait := tp.nwait - 1 })
    jobs := s.jobs.filter (·.id ≠ jp.id)
    events := (s.events.erase ⟨.evt, jp.id⟩).erase ⟨.ev, jp.id⟩
    njob := s.njob - 1
    vtcGood := good
    vtcFail := fail
    vtcSkip := skip
    i := 1
    ended := s.ended ++ [jp.tst] }

/-- All that a turn of the main loop can do. -/
inductive Effect (cfg : Cfg) (s : St) : St → Prop where
  | start {t : Nat} {rest : List Nat} {tp : Tst} (hq : s.tstHead = t :: rest)
      (ht : s.tst? t = some tp) (hn : 0 < tp.ntodo) (hcap : s.njob < cfg.npar) :
      Effect cfg s (started s t rest tp)
  | idle (he : s.events = []) : Effect cfg s { s with i := 0 }
  | killed (j : Nat) : Effect cfg s { kill s j with i := 1 }
  | seen : Effect cfg s { s with i := 1 }
  | ended {jp : Job} {tp : Tst} {good fail skip : Nat} (hj : jp ∈ s.jobs)
      (ht : s.tst? jp.tst = some tp)
      (hc : good + fail + skip = s.vtcGood + s.vtcFail + s.vtcSkip + 1) :
      Effect cfg s (jobOver s jp tp good fail skip)

theorem startTest_eq_ok {s s' : St} (h : startTest s = .ok s') :
    ∃ t rest tp, s.tstHead = t :: rest ∧ s.tst? t = some tp ∧ 0 < tp.ntodo ∧
      { s' with njob := s'.njob + 1, i := 1 } = started s t rest tp := by
  rw [startTest] at h
  cases hq : s.tstHead with
  | nil => rw [hq] at h; cases h
  | cons t rest =>
    simp only [hq] at h
    cases ht : s.tst? t with
    | none => rw [ht] at h; cases h
    | some tp =>
      simp only [ht] at h
      obtain ⟨hn, h⟩ := check_bind_eq_ok.mp h
      injection h with h
      subst h
      exact ⟨t, rest, tp, rfl, ht, Nat.pos_of_ne_zero (by simpa using hn), rfl⟩

/-- Exactly one of the counters is increased. -/
theorem countResult_eq (s : St) (stx : Status) : ∃ good fail skip,
    countResult s stx = { s with vtcGood := good, vtcFail := fail, vtcSkip := skip } ∧
      good + fail + skip = s.vtcGood + s.vtcFail + s.vtcSkip + 1 := by
  rw [countResult]
  split
  · exact ⟨_, _, _, rfl, by omega⟩
  · split
    · exact ⟨_, _, _, rfl, by omega⟩
    · exact ⟨_, _, _, rfl, by omega⟩

theorem job?_eq_some {s : St} {j : Nat} {jp : Job} (h : s.job? j = some jp) :
    jp ∈ s.jobs ∧ jp.id = j :=
  ⟨List.mem_of_find?_eq_some h, by simpa using List.find?_some h⟩

theorem vevStop_eq_ok {s s' : St} {e : Ev} (h : vevStop s e = .ok s') :
    e ∈ s.events ∧ s' = { s with events := s.events.erase e } := by
  obtain ⟨hc, h⟩ := check_bind_eq_ok.mp h
  injection h with h
  exact ⟨by simpa using hc, h.symm⟩

theorem dropWait_eq_ok {s s' : St} {t : Nat} (h : dropWait s t = .ok s') :
    ∃ tp, s.tst? t = some tp ∧
      s' = { s with
        tsts := s.tsts.set t
          (if tp.nwait - 1 = 0 then none else some { tp with nwait := tp.nwait - 1 }) } := by
  rw [dropWait] at h
  cases ht : s.tst? t with
  | none => rw [ht] at h; cases h
  | some tp =>
    simp only [ht] at h
    injection h with h
    exact ⟨tp, rfl, h.symm⟩

/-- The end of a job, from `tst_cb` to `VEV_Stop` for the event that called it. -/
theorem jobEnded_effect {cfg : Cfg} {s s1 s' : St} {j : Nat} {jp : Job} {stx : Status}
    (hj : s.job? j = some jp) (h1 : jobEnded cfg s jp stx = .ok s1)
    (h2 : vevStop s1 ⟨.ev, j⟩ = .ok s') : Effect cfg s { s' with i := 1 } := by
  obtain ⟨hmem, rfl⟩ := job?_eq_some hj
  obtain ⟨good, fail, skip, hcount, hc⟩ :=
    countResult_eq { s with njob := s.njob - 1, ended := s.ended ++ [jp.tst] } stx
  rw [jobEnded, hcount] at h1
  obtain ⟨-, h1⟩ := fatalIf_bind_eq_ok.mp h1
  obtain ⟨s2, hs2, h1⟩ := bind_eq_ok.mp h1
  obtain ⟨-, rfl⟩ := vevStop_eq_ok hs2
  obtain ⟨s3, hs3, h1⟩ := bind_eq_ok.mp h1
  obtain ⟨tp, ht, rfl⟩ := dropWait_eq_ok hs3
  injection h1 with h1
  subst h1
  obtain ⟨-, rfl⟩ := vevStop_eq_ok h2
  exact .ended hmem ht hc

/-- The event that a report is about. -/
def Report.ev : Report → Ev
  | .timeout j => ⟨.evt, j⟩
  | .output j => ⟨.ev, j⟩
  | .failed j => ⟨.ev, j⟩
  | .closed j _ => ⟨.ev, j⟩

/-- What becomes of a report once its job has been found. -/
def handled (cfg : Cfg) (s : St) (jp : Job) : Report → Res St
  | .timeout j => .ok (kill s j)
  | .output _ => .ok s
  | .failed _ => .ok s
  | .closed j stx => do
    let s ← jobEnded cfg s jp stx
    vevStop s ⟨.ev, j⟩

/-- All callbacks start with the event and its job. -/
theorem vevOnce_eq (cfg : Cfg) (s : St) (r : Report) : vevOnce cfg s r =
    if !s.events.contains r.ev then .error .fuel
    else
      match s.job? r.ev.job with
      | none => .error .ub
      | some jp => handled cfg s jp r := by
  cases r <;> rfl

theorem vevOnce_effect {cfg : Cfg} {s s' : St} {r : Report} (h : vevOnce cfg s r = .ok s') :
    Effect cfg s { s' with i := 1 } := by
  rw [vevOnce_eq] at h
  split at h
  · cases h
  · cases hj : s.job? r.ev.job with
    | none => rw [hj] at h; cases h
    | some jp =>
      rw [hj] at h
      cases r with
      | timeout j =>
        injection h with h
        subst h
        exact .killed j
      | output j =>
        injection h with h
        subst h
        exact .seen
      | failed j =>
        injection h with h
        subst h
        exact .seen
      | closed j stx =>
        obtain ⟨s1, h1, h2⟩ := bind_eq_ok.mp h
        exact jobEnded_effect hj h1 h2

theorem mainTurn_effect {cfg : Cfg} {s s' : St} {a : Turn} (h : mainTurn cfg s a = .ok s') :
    Effect cfg s s' := by
  unfold mainTurn at h
  split at h
  · cases h
  · split at h
    · rename_i hstart
      simp only [Bool.and_eq_true, decide_eq_true_eq] at hstart
      cases a with
      | start =>
        obtain ⟨s1, h1, h⟩ := bind_eq_ok.mp h
        obtain ⟨t, rest, tp, hq, ht, hn, heq⟩ := startTest_eq_ok h1
        injection h with h
        rw [← h, heq]
        exact .start hq ht hn hstart.2
      | idle => cases h
      | report r => cases h
    · cases a with
      | start => cases h
      | idle =>
        simp only at h
        split at h
        · rename_i he
          injection h with h
          subst h
          exact .idle (by simpa using he)
        · cases h
      | report r =>
        obtain ⟨s1, h1, h⟩ := bind_eq_ok.mp h
        injection h with h
        subst h
        exact vevOnce_effect h1

/-! ## The pieces of a state after a turn -/

section Pieces

variable {s : St} {t : Nat} {rest : List Nat} {tp : Tst} {jp : Job} {good fail skip : Nat}

theorem tst?_started (ht : s.tst? t = some tp) (u : Nat) : (started s t rest tp).tst? u =
    if u = t then some { tp with ntodo := tp.ntodo - 1 } else s.tst? u :=
  tst?_set (lt_of_tst? ht) _ u

theorem todoOf_started (ht : s.tst? t = some tp) (u : Nat) : (started s t rest tp).todoOf u =
    if u = t then tp.ntodo - 1 else s.todoOf u := by
  rw [St.todoOf, tst?_started ht]
  split <;> rfl

theorem live_started : (started s t rest tp).live = s.live ++ [t] := by
  simp [St.live, started]

theorem ids_started : (started s t rest tp).ids = s.ids ++ [s.nextJob] := by
  simp [St.ids, started]

theorem live_kill (j : Nat) : (kill s j).live = s.live := by
  rw [St.live, kill, List.map_map]
  refine List.map_congr_left fun jp _ => ?_
  simp only [Function.comp_apply]
  split <;> rfl

theorem ids_kill (j : Nat) : (kill s j).ids = s.ids := by
  rw [St.ids, kill, List.map_map]
  refine List.map_congr_left fun jp _ => ?_
  simp only [Function.comp_apply]
  split <;> rfl

theorem tst?_jobOver (ht : s.tst? jp.tst = some tp) (u : Nat) :
    (jobOver s jp tp good fail skip).tst? u =
      if u = jp.tst then
        if tp.nwait - 1 = 0 then none else some { tp with nwait := tp.nwait - 1 }
      else s.tst? u :=
  tst?_set (lt_of_tst? ht) _ u

theorem mem_ids_jobOver (j : Nat) :
    j ∈ (jobOver s jp tp good fail skip).ids ↔ j ∈ s.ids ∧ j ≠ jp.id := by
  simp only [St.ids, jobOver, List.mem_map, List.mem_filter, decide_eq_true_eq]
  constructor
  · rintro ⟨x, ⟨hx, hne⟩, rfl⟩
    exact ⟨⟨x, hx, rfl⟩, hne⟩
  · rintro ⟨⟨x, hx, rfl⟩, hne⟩
    exact ⟨x, ⟨hx, hne⟩, rfl⟩

theorem live_jobOver (hj : jp ∈ s.jobs) (hids : s.ids.Nodup) :
    s.live.Perm (jp.tst :: (jobOver s jp tp good fail skip).live) :=
  (perm_filter_ne hj hids).map Job.tst

/-- A test with runs left goes to the end of the queue. -/
theorem nodup_requeue {p : Prop} [Decidable p] (h : (t :: rest).Nodup) :
    (if p then rest ++ [t] else rest).Nodup := by
  rw [List.nodup_cons] at h
  split
  · rw [List.nodup_append]
    refine ⟨h.2, List.nodup_singleton _, fun a ha b hb e => ?_⟩
    rw [List.mem_singleton] at hb
    exact h.1 (hb ▸ e ▸ ha)
  · exact h.2

theorem mem_requeue {p : Prop} [Decidable p] (h : (t :: rest).Nodup) (u : Nat) :
    u ∈ (if p then rest ++ [t] else rest) ↔ if u = t then p else u ∈ t :: rest := by
  have hnot := (List.nodup_cons.mp h).1
  by_cases hut : u = t
  · subst hut
    by_cases hp : p
    · simp [hp]
    · simp [hp, hnot]
  · by_cases hp : p
    · simp [hp, hut]
    · simp [hp, hut]

end Pieces

/-! ## The invariant is kept -/

section Keeps

variable {files : List (Bytes × Bytes)} {skips : Nat} {cfg : Cfg} {s s' : St}

theorem Inv.started {t : Nat} {rest : List Nat} {tp : Tst} (hi : Inv files skips s)
    (hq : s.tstHead = t :: rest) (ht : s.tst? t = some tp) (hn : 0 < tp.ntodo) :
    Inv files skips (started s t rest tp) where
  ids := by
    rw [ids_started, List.nodup_append]
    refine ⟨hi.ids, List.nodup_singleton _, fun a ha b hb => ?_⟩
    have := hi.fresh a ha
    rw [List.mem_singleton] at hb
    omega
  fresh := by
    rw [ids_started]
    intro j hj
    show j < s.nextJob + 1
    rcases List.mem_append.mp hj with hj | hj
    · exact Nat.lt_succ_of_lt (hi.fresh j hj)
    · rw [List.mem_singleton.mp hj]
      exact Nat.lt_succ_self _
  evNodup := by
    show (s.events ++ _).Nodup
    rw [List.nodup_append]
    refine ⟨hi.evNodup, by simp, fun a ha b hb e => ?_⟩
    -- the events of a new job are not there yet
    have hold := hi.fresh a.job ((hi.ev a).mp ha)
    rcases List.mem_pair.mp hb with rfl | rfl <;> rw [e] at hold <;> exact Nat.lt_irrefl _ hold
  ev e := by
    show e ∈ s.events ++ _ ↔ _
    rw [ids_started, List.mem_append, List.mem_append, hi.ev, List.mem_pair, List.mem_singleton]
    obtain ⟨kind, job⟩ := e
    cases kind <;> simp
  njob := by
    show s.njob + 1 = _
    rw [live_started, hi.njob, List.length_append]
    rfl
  wait u up hu := by
    rw [tst?_started ht] at hu
    rw [live_started, List.count_append, List.count_singleton]
    split at hu
    · rename_i hut
      injection hu with hu
      subst hut hu
      have hw := hi.wait u tp ht
      simp only [beq_self_eq_true, if_true]
      omega
    · rename_i hut
      have hw := hi.wait u up hu
      rw [if_neg (by simpa using Ne.symm hut)]
      exact hw
  freed u hu := by
    rw [tst?_started ht] at hu
    rw [live_started, List.mem_append, List.mem_singleton]
    split at hu
    · cases hu
    · rename_i hut
      rintro (h | h)
      · exact hi.freed u hu h
      · exact hut h
  len := (List.length_set ..).trans hi.len
  file u up hu := by
    rw [tst?_started ht] at hu
    split at hu
    · rename_i hut
      injection hu with hu
      subst hut hu
      exact hi.file u tp ht
    · exact hi.file u up hu
  queueNodup := nodup_requeue (hq ▸ hi.queueNodup)
  queue u := by
    refine (mem_requeue (hq ▸ hi.queueNodup) u).trans ?_
    rw [todoOf_started ht, ← hq]
    split
    · rfl
    · exact hi.queue u
  idle h := absurd (show (1 : Int) = 0 from h) (by decide)
  counted := hi.counted
  forked := by
    show ((s.forked ++ [t] : List Nat) : Multiset Nat) = _ + (s.ended : Multiset Nat)
    rw [live_started, ← Multiset.coe_add, ← Multiset.coe_add, hi.forked]
    exact add_right_comm _ _ _

/-- The last job of a test is the only one, and there is none to come. -/
theorem Inv.last {jp : Job} {tp : Tst} (hi : Inv files skips s) (hj : jp ∈ s.jobs)
    (ht : s.tst? jp.tst = some tp) (h : tp.nwait - 1 = 0) :
    tp.ntodo = 0 ∧ s.live.count jp.tst = 1 := by
  have hw := hi.wait _ _ ht
  have hpos : 0 < s.live.count jp.tst := List.count_pos_iff.mpr (List.mem_map_of_mem hj)
  omega

/-- What is still to be started does not change with the end of a job. -/
theorem Inv.todoOf_jobOver {jp : Job} {tp : Tst} {good fail skip : Nat} (hi : Inv files skips s)
    (hj : jp ∈ s.jobs) (ht : s.tst? jp.tst = some tp) (u : Nat) :
    (jobOver s jp tp good fail skip).todoOf u = s.todoOf u := by
  rw [St.todoOf, tst?_jobOver ht]
  split
  · rename_i hu
    rw [hu, St.todoOf, ht]
    split
    · rename_i h0
      exact (hi.last hj ht h0).1.symm
    · rfl
  · rfl

theorem Inv.jobOver {jp : Job} {tp : Tst} {good fail skip : Nat} (hi : Inv files skips s)
    (hj : jp ∈ s.jobs) (ht : s.tst? jp.tst = some tp)
    (hc : good + fail + skip = s.vtcGood + s.vtcFail + s.vtcSkip + 1) :
    Inv files skips (jobOver s jp tp good fail skip) := by
  have hlive := @live_jobOver s tp jp good fail skip hj hi.ids
  have hcount : ∀ u, s.live.count u = (Jobs.jobOver s jp tp good fail skip).live.count u +
      if jp.tst = u then 1 else 0 := by
    intro u
    rw [hlive.count_eq, List.count_cons]
    simp
  exact
  { ids := (List.filter_sublist.map Job.id).nodup hi.ids
    fresh := fun j h => hi.fresh j ((mem_ids_jobOver j).mp h).1
    evNodup := (hi.evNodup.erase _).erase _
    ev := by
      rintro ⟨kind, job⟩
      show _ ∈ (s.events.erase _).erase _ ↔ _
      rw [mem_ids_jobOver, (hi.evNodup.erase _).mem_erase_iff, hi.evNodup.mem_erase_iff, hi.ev]
      cases kind <;> simp [and_comm]
    njob := by
      show s.njob - 1 = _
      have := hlive.length_eq
      rw [List.length_cons] at this
      rw [hi.njob, this]
      simp
    wait := by
      intro u up hu
      rw [tst?_jobOver ht] at hu
      have hcu := hcount u
      split at hu
      · rename_i hut
        split at hu
        · cases hu
        · injection hu with hu
          subst hut hu
          have hw := hi.wait _ _ ht
          rw [if_pos rfl] at hcu
          simp only
          omega
      · rename_i hut
        have hw := hi.wait u up hu
        rw [if_neg (Ne.symm hut)] at hcu
        omega
    freed := by
      intro u hu
      rw [tst?_jobOver ht] at hu
      have hcu := hcount u
      rw [← List.count_eq_zero]
      split at hu
      · rename_i hut
        split at hu
        · rename_i h0
          subst hut
          rw [if_pos rfl, (hi.last hj ht h0).2] at hcu
          omega
        · cases hu
      · have := List.count_eq_zero.mpr (hi.freed u hu)
        omega
    len := (List.length_set ..).trans hi.len
    file := by
      intro u up hu
      rw [tst?_jobOver ht] at hu
      split at hu
      · rename_i hut
        split at hu
        · cases hu
        · injection hu with hu
          subst hut hu
          exact hi.file _ tp ht
      · exact hi.file u up hu
    queueNodup := hi.queueNodup
    queue := fun u => by
      rw [hi.todoOf_jobOver hj ht]
      exact hi.queue u
    idle := fun h => absurd (show (1 : Int) = 0 from h) (by decide)
    counted := by
      show good + fail + skip = skips + (s.ended ++ [jp.tst]).length
      rw [hc, hi.counted, List.length_append, List.length_singleton, Nat.add_assoc]
    forked := by
      show (s.forked : Multiset Nat) = _ + ((s.ended ++ [jp.tst] : List Nat) : Multiset Nat)
      rw [hi.forked, Multiset.coe_eq_coe.mpr hlive, ← Multiset.cons_coe, ← Multiset.coe_add,
        Multiset.coe_singleton, ← Multiset.singleton_add]
      abel }

/-- Of a job, only its address and its test matter. -/
theorem Inv.relabel {jobs : List Job} (hi : Inv files skips s) (hid : jobs.map Job.id = s.ids)
    (htst : jobs.map Job.tst = s.live) : Inv files skips { s with jobs := jobs, i := 1 } where
  ids := (congrArg List.Nodup hid).mpr hi.ids
  fresh j hj := hi.fresh j (hid ▸ hj)
  evNodup := hi.evNodup
  ev e := (hi.ev e).trans (by rw [← hid]; rfl)
  njob := hi.njob.trans (by rw [← htst]; rfl)
  wait t tp ht := by
    have hw := hi.wait t tp ht
    rw [← htst] at hw
    exact hw
  freed t ht hmem := hi.freed t ht (htst ▸ hmem)
  len := hi.len
  file := hi.file
  queueNodup := hi.queueNodup
  queue := hi.queue
  idle h := absurd (show (1 : Int) = 0 from h) (by decide)
  counted := hi.counted
  forked := hi.forked.trans (by rw [← htst]; rfl)

/-- Every effect of a turn keeps the invariant. -/
theorem Inv.effect (hi : Inv files skips s) (h : Effect cfg s s') : Inv files skips s' := by
  cases h with
  | start hq ht hn _ => exact hi.started hq ht hn
  | idle he =>
    have hnone : s.live = [] := by
      refine List.map_eq_nil_iff.mpr (List.eq_nil_iff_forall_not_mem.mpr fun jp hj => ?_)
      have hev := (hi.ev ⟨.ev, jp.id⟩).mpr (List.mem_map_of_mem hj)
      rw [he] at hev
      cases hev
    exact { hi with idle := fun _ => hnone }
  | killed j => exact hi.relabel (ids_kill j) (live_kill j)
  | seen => exact { hi with idle := fun h => absurd (show (1 : Int) = 0 from h) (by decide) }
  | ended hj ht hc => exact hi.jobOver hj ht hc

theorem Inv.turn {a : Turn} (hi : Inv files skips s) (h : mainTurn cfg s a = .ok s') :
    Inv files skips s' :=
  hi.effect (mainTurn_effect h)

/-! ## The main loop is a pool of work -/

theorem Inv.effect_refines (hi : Inv files skips s) (h : Effect cfg s s') :
    pool s' = pool s ∨ Pool.Step cfg.npar.toNat (pool s) (pool s') := by
  cases h with
  | @start t rest tp hq ht hn hcap =>
    refine .inr (.of_start (t := t) ?_ ?_ rfl ?_)
    · ext u
      rw [Multiset.count_cons, count_todo, count_todo, todoOf_started ht]
      split
      · rename_i hu
        rw [hu, St.todoOf, ht]
        exact (Nat.sub_add_cancel hn).symm
      · rfl
    · show ((Jobs.started s t rest tp).live : Multiset Nat) = _
      rw [live_started, ← Multiset.coe_add, add_comm]
      rfl
    · have := hi.njob
      show (s.live : Multiset Nat).card < _
      rw [Multiset.coe_card]
      omega
  | idle => exact .inl rfl
  | killed j =>
    refine .inl ?_
    show Pool.mk (pool s).todo (kill s j).live (pool s).done = pool s
    rw [live_kill]
    rfl
  | seen => exact .inl rfl
  | @ended jp tp good fail skip hj ht hc =>
    refine .inr (.of_finish (t := jp.tst) ?_ ?_ ?_)
    · ext u
      rw [count_todo, count_todo, hi.todoOf_jobOver hj ht]
    · exact Multiset.coe_eq_coe.mpr (live_jobOver hj hi.ids)
    · show ((s.ended ++ [jp.tst] : List Nat) : Multiset Nat) = _
      rw [← Multiset.coe_add, add_comm]
      rfl

/-! ## Nothing traps -/

theorem job?_of_mem {j : Nat} (h : j ∈ s.ids) : ∃ jp, s.job? j = some jp := by
  obtain ⟨jp, hj, rfl⟩ := List.mem_map.mp h
  rw [← Option.isSome_iff_exists, St.job?, List.find?_isSome]
  exact ⟨jp, hj, by simp⟩

theorem vevStop_of_mem {e : Ev} (h : e ∈ s.events) :
    vevStop s e = .ok { s with events := s.events.erase e } := by
  rw [vevStop, List.contains_iff_mem.mpr h]
  rfl

theorem dropWait_of_tst? {t : Nat} {tp : Tst} (h : s.tst? t = some tp) :
    dropWait s t = .ok { s with
      tsts := s.tsts.set t
        (if tp.nwait - 1 = 0 then none else some { tp with nwait := tp.nwait - 1 }) } := by
  rw [dropWait, h]

theorem Inv.tst_of_live {t : Nat} (hi : Inv files skips s) (h : t ∈ s.live) :
    ∃ tp, s.tst? t = some tp := by
  rw [← Option.ne_none_iff_exists']
  exact fun hnone => hi.freed t hnone h

theorem Inv.startTest_ok (hi : Inv files skips s) (hq : s.tstHead ≠ []) :
    ∃ s', startTest s = .ok s' := by
  obtain ⟨t, rest, hq⟩ := List.exists_cons_of_ne_nil hq
  have htodo : 0 < s.todoOf t := (hi.queue t).mp (by rw [hq]; exact List.mem_cons_self)
  cases ht : s.tst? t with
  | none =>
    rw [St.todoOf, ht] at htodo
    exact absurd htodo (Nat.lt_irrefl 0)
  | some tp =>
    rw [St.todoOf, ht] at htodo
    have hn : decide (tp.ntodo ≠ 0) = true := decide_eq_true (Nat.ne_of_gt htodo)
    simp only [startTest, hq, ht, hn, check_true, ok_bind]
    exact ⟨_, rfl⟩

theorem Inv.closed_ok {jp : Job} {stx : Status} (hi : Inv files skips s)
    (hk : cfg.vtcContinue = true) (hj : jp ∈ s.jobs) :
    ∃ s', (jobEnded cfg s jp stx >>= fun s => vevStop s ⟨.ev, jp.id⟩) = .ok s' := by
  obtain ⟨good, fail, skip, hcount, -⟩ :=
    countResult_eq { s with njob := s.njob - 1, ended := s.ended ++ [jp.tst] } stx
  obtain ⟨tp, ht⟩ := hi.tst_of_live (List.mem_map_of_mem hj)
  have hevt : ⟨.evt, jp.id⟩ ∈ s.events := (hi.ev _).mpr (List.mem_map_of_mem hj)
  have hev : ⟨.ev, jp.id⟩ ∈ s.events.erase ⟨.evt, jp.id⟩ :=
    hi.evNodup.mem_erase_iff.mpr ⟨by simp, (hi.ev _).mpr (List.mem_map_of_mem hj)⟩
  rw [jobEnded, hcount, hk]
  simp only [Bool.not_true, Bool.and_false, Bool.false_and, fatalIf_false, ok_bind]
  refine ⟨_, bind_eq_ok.mpr ⟨_, bind_eq_ok.mpr ⟨_, vevStop_of_mem hevt,
    bind_eq_ok.mpr ⟨_, dropWait_of_tst? ht, rfl⟩⟩, vevStop_of_mem hev⟩⟩

/-- A report about a registered event is handled. -/
theorem Inv.vevOnce_ok (hi : Inv files skips s) (hk : cfg.vtcContinue = true) (r : Report) :
    vevOnce cfg s r = .error .fuel ∨ ∃ s', vevOnce cfg s r = .ok s' := by
  rw [vevOnce_eq]
  split
  · exact .inl rfl
  · rename_i he
    -- whatever the event, its job has not been freed
    obtain ⟨jp, hj⟩ := job?_of_mem ((hi.ev r.ev).mp (by simpa using he))
    rw [hj]
    refine .inr ?_
    cases r with
    | timeout j => exact ⟨_, rfl⟩
    | output j => exact ⟨_, rfl⟩
    | failed j => exact ⟨_, rfl⟩
    | closed j stx =>
      obtain ⟨hmem, rfl⟩ := job?_eq_some hj
      exact hi.closed_ok hk hmem

/-- No turn fails an assertion, exits or follows a pointer to something freed: a turn that is not
possible is one that the loop does not take. -/
theorem Inv.no_trap (hi : Inv files skips s) (hk : cfg.vtcContinue = true) (a : Turn) :
    mainTurn cfg s a = .error .fuel ∨ ∃ s', mainTurn cfg s a = .ok s' := by
  unfold mainTurn
  split
  · exact .inl rfl
  · split
    · rename_i hstart
      simp only [Bool.and_eq_true, Bool.not_eq_true', List.isEmpty_eq_false_iff] at hstart
      cases a with
      | start =>
        obtain ⟨s1, h1⟩ := hi.startTest_ok hstart.1
        exact .inr ⟨_, by rw [h1]; rfl⟩
      | idle => exact .inl rfl
      | report r => exact .inl rfl
    · cases a with
      | start => exact .inl rfl
      | idle =>
        simp only
        split
        · exact .inr ⟨_, rfl⟩
        · exact .inl rfl
      | report r =>
        rcases hi.vevOnce_ok hk r with h | ⟨s1, h⟩
        · exact .inl (by simp only [h]; rfl)
        · exact .inr ⟨_, by simp only [h]; rfl⟩

end Keeps

/-! ## The files -/

section Files

variable {cfg : Cfg} {readfile : Bytes → Option Bytes}

/-- The files that `read_file` accepts, with their content. -/
def accepted (readfile : Bytes → Option Bytes) (argv : List Bytes) : List (Bytes × Bytes) :=
  argv.filterMap fun fn =>
    (readfile fn).bind fun p => if verdict p = .test then some (fn, p) else none

/-- The test that `read_file` makes of a file. -/
def newTst (cfg : Cfg) (f : Bytes × Bytes) : Option Tst :=
  some ⟨f.1, f.2, cfg.vtcNtest, cfg.vtcNtest⟩

/-- What `tst_head` is when the files have been read, and how many were skipped then. -/
def loaded (cfg : Cfg) (files : List (Bytes × Bytes)) (skips : Nat) : St :=
  { tsts := files.map (newTst cfg), tstHead := List.range files.length, vtcSkip := skips }

theorem readFile_eq (files : List (Bytes × Bytes)) (skips : Nat) (fn : Bytes) :
    ∃ skips', (readFile cfg readfile (loaded cfg files skips) fn).2 =
      loaded cfg (files ++ accepted readfile [fn]) skips' := by
  rw [readFile, accepted, List.filterMap_cons, List.filterMap_nil]
  cases hr : readfile fn with
  | none => exact ⟨skips, by simp⟩
  | some p =>
    cases hv : verdict p with
    | empty => exact ⟨skips, by simp [hv]⟩
    | other => exact ⟨skips + 1, by simp [hv, loaded]⟩
    | test => exact ⟨skips, by simp [hv, loaded, newTst, List.range_succ]⟩

/-- With `-k`, all of the files that can be accepted are read, in their order. -/
theorem readFiles_eq (hk : cfg.vtcContinue = true) (argv : List Bytes) :
    ∀ (files : List (Bytes × Bytes)) (skips : Nat), ∃ skips',
      readFiles cfg readfile (loaded cfg files skips) argv =
        .ok (loaded cfg (files ++ accepted readfile argv) skips') := by
  induction argv with
  | nil => intro files skips; exact ⟨skips, by simp [readFiles, accepted]⟩
  | cons fn argv ih =>
    intro files skips
    obtain ⟨skips1, h1⟩ := @readFile_eq cfg readfile files skips fn
    obtain ⟨skips2, h2⟩ := ih (files ++ accepted readfile [fn]) skips1
    refine ⟨skips2, ?_⟩
    have happ : accepted readfile (fn :: argv) =
        accepted readfile [fn] ++ accepted readfile argv := by
      rw [accepted, accepted, accepted, ← List.filterMap_append]
      rfl
    rw [readFiles, hk]
    simp only [Bool.not_true, Bool.and_false, Bool.false_eq_true, if_false]
    rw [h1, h2, happ, List.append_assoc]

theorem tst?_loaded (files : List (Bytes × Bytes)) (skips t : Nat) :
    (loaded cfg files skips).tst? t = (files[t]?).bind (newTst cfg) := by
  rw [St.tst?, loaded]
  simp only [List.getElem?_map]
  cases files[t]? <;> rfl

theorem todoOf_loaded (files : List (Bytes × Bytes)) (skips t : Nat) :
    (loaded cfg files skips).todoOf t = if t < files.length then cfg.vtcNtest else 0 := by
  rw [St.todoOf, tst?_loaded]
  split
  · rename_i h
    rw [List.getElem?_eq_getElem h]
    rfl
  · rename_i h
    rw [List.getElem?_eq_none (Nat.not_lt.mp h)]
    rfl

/-- At the first head of the loop. -/
theorem inv_loaded (hN : 1 ≤ cfg.vtcNtest) (files : List (Bytes × Bytes)) (skips : Nat) :
    Inv files skips (loaded cfg files skips) where
  ids := List.nodup_nil
  fresh j h := absurd h List.not_mem_nil
  evNodup := List.nodup_nil
  ev e := by simp [loaded, St.ids]
  njob := rfl
  wait t tp h := by
    rw [tst?_loaded, Option.bind_eq_some_iff] at h
    obtain ⟨f, -, hf⟩ := h
    injection hf with hf
    subst hf
    exact ⟨rfl, hN⟩
  freed t _ := List.not_mem_nil
  len := List.length_map _
  file t tp h := by
    rw [tst?_loaded, Option.bind_eq_some_iff] at h
    obtain ⟨f, hf, hn⟩ := h
    injection hn with hn
    subst hn
    exact hf
  queueNodup := List.nodup_range
  queue t := by
    rw [todoOf_loaded]
    show t ∈ List.range files.length ↔ _
    rw [List.mem_range]
    split
    · rename_i h
      exact ⟨fun _ => hN, fun _ => h⟩
    · rename_i h
      exact ⟨fun h' => absurd h' h, fun h' => absurd h' (Nat.lt_irrefl 0)⟩
  idle _ := rfl
  counted := by simp [loaded]
  forked := rfl

/-- The work that the files are: each of them `n` times. -/
def work (files : List (Bytes × Bytes)) (n : Nat) : Multiset Nat :=
  ∑ t ∈ Finset.range files.length, Multiset.replicate n t

theorem count_work (files : List (Bytes × Bytes)) (n : Nat) {t : Nat} (h : t < files.length) :
    (work files n).count t = n := by
  rw [work, Multiset.count_sum']
  simp only [Multiset.count_replicate]
  rw [Finset.sum_ite_eq', if_pos (Finset.mem_range.mpr h)]

theorem card_work (files : List (Bytes × Bytes)) (n : Nat) :
    (work files n).card = n * files.length := by
  rw [work, Multiset.card_sum]
  simp [Nat.mul_comm]

theorem pool_loaded (files : List (Bytes × Bytes)) (skips : Nat) :
    pool (loaded cfg files skips) = ⟨work files cfg.vtcNtest, 0, 0⟩ := by
  have hlen : (loaded cfg files skips).tsts.length = files.length := List.length_map _
  have htodo : (pool (loaded cfg files skips)).todo = work files cfg.vtcNtest := by
    show ∑ t ∈ Finset.range (loaded cfg files skips).tsts.length,
      Multiset.replicate ((loaded cfg files skips).todoOf t) t = work files cfg.vtcNtest
    rw [hlen, work]
    refine Finset.sum_congr rfl fun t ht => ?_
    rw [todoOf_loaded, if_pos (Finset.mem_range.mp ht)]
  rw [← htodo]
  rfl

/-- What holds at each head of the main loop. -/
theorem reached {files : List (Bytes × Bytes)} {skips : Nat} {s : St} {l : List Turn}
    (hN : 1 ≤ cfg.vtcNtest) (h : run (mainTurn cfg) (loaded cfg files skips) l = .ok s) :
    Inv files skips s ∧ Pool.Runs cfg.npar.toNat (work files cfg.vtcNtest) (pool s) := by
  refine run_keeps (I := fun s => Inv files skips s ∧
    Pool.Runs cfg.npar.toNat (work files cfg.vtcNtest) (pool s)) ?_ l _ s ?_ h
  · rintro s a s' ⟨hi, hr⟩ hturn
    refine ⟨hi.turn hturn, ?_⟩
    rcases hi.effect_refines (mainTurn_effect hturn) with he | hs
    · rw [he]
      exact hr
    · exact hr.step hs
  · refine ⟨inv_loaded hN files skips, ?_⟩
    rw [pool_loaded]
    exact .refl

/-- How often a test was started and how often it is still to be started add up to `-n`. -/
theorem forked_add_todo {files : List (Bytes × Bytes)} {skips : Nat} {s : St}
    (hi : Inv files skips s)
    (hr : Pool.Runs cfg.npar.toNat (work files cfg.vtcNtest) (pool s)) {t : Nat}
    (ht : t < files.length) : s.forked.count t + s.todoOf t = cfg.vtcNtest := by
  have hsum := congrArg (Multiset.count t) hr.work_eq
  have hf := congrArg (Multiset.count t) hi.forked
  rw [Multiset.count_add, Multiset.count_add, count_todo, count_work files _ ht] at hsum
  rw [Multiset.count_add, Multiset.coe_count] at hf
  have hl : (pool s).live.count t = Multiset.count t (s.live : Multiset Nat) := rfl
  have hd : (pool s).done.count t = Multiset.count t (s.ended : Multiset Nat) := rfl
  omega

theorem todoOf_pos {s : St} {t : Nat} :
    0 < s.todoOf t ↔ ∃ tp, s.tst? t = some tp ∧ 0 < tp.ntodo := by
  rw [St.todoOf]
  cases s.tst? t <;> simp

/-- What the variables of the main loop say about the jobs and the tests. -/
structure HeadOk (cfg : Cfg) (files : List (Bytes × Bytes)) (s : St) : Prop where
  njob : s.njob = s.jobs.length
  npar : s.njob ≤ cfg.npar
  nwait : ∀ t tp, s.tst? t = some tp → tp.nwait = tp.ntodo + s.live.count t
  file : ∀ t tp, s.tst? t = some tp → files[t]? = some (tp.filename, tp.script)
  queue : ∀ t, t ∈ s.tstHead ↔ ∃ tp, s.tst? t = some tp ∧ 0 < tp.ntodo
  freed : ∀ t, t < files.length → s.tst? t = none →
    t ∉ s.live ∧ s.ended.count t = cfg.vtcNtest
  kept : ∀ jp ∈ s.jobs, (s.tst? jp.tst).isSome

theorem headOk {files : List (Bytes × Bytes)} {skips : Nat} {s : St} (hP : 1 ≤ cfg.npar)
    (hi : Inv files skips s)
    (hr : Pool.Runs cfg.npar.toNat (work files cfg.vtcNtest) (pool s)) : HeadOk cfg files s where
  njob := by rw [hi.njob, St.live, List.length_map]
  npar := by
    have hcap : s.live.length ≤ cfg.npar.toNat := hr.card_live_le
    rw [hi.njob]
    omega
  nwait t tp ht := (hi.wait t tp ht).1
  file := hi.file
  queue t := (hi.queue t).trans todoOf_pos
  freed t hlt ht := by
    have hnot := hi.freed t ht
    have hsum := congrArg (Multiset.count t) hr.work_eq
    have htodo : s.todoOf t = 0 := by rw [St.todoOf, ht]; rfl
    have hlive : (pool s).live.count t = 0 := Multiset.count_eq_zero.mpr hnot
    rw [Multiset.count_add, Multiset.count_add, count_todo, count_work files _ hlt, htodo, hlive,
      Nat.zero_add] at hsum
    exact ⟨hnot, by rw [← Multiset.coe_count]; exact hsum⟩
  kept jp hj := by
    obtain ⟨tp, ht⟩ := hi.tst_of_live (List.mem_map_of_mem hj)
    rw [ht]
    rfl

/-- The loop ends when nothing is to be started and nothing is running. -/
theorem ended_of_not_goesOn {files : List (Bytes × Bytes)} {skips : Nat} {s : St}
    (hi : Inv files skips s)
    (hr : Pool.Runs cfg.npar.toNat (work files cfg.vtcNtest) (pool s)) (hend : s.goesOn = false) :
    (∀ t, s.todoOf t = 0) ∧ s.ended.length = cfg.vtcNtest * files.length := by
  simp only [St.goesOn, Bool.or_eq_false_iff, Bool.not_eq_false', List.isEmpty_iff,
    decide_eq_false_iff_not, not_not] at hend
  have htodo : ∀ t, s.todoOf t = 0 := by
    intro t
    have hq := hi.queue t
    rw [hend.1] at hq
    exact Nat.eq_zero_of_not_pos fun hpos => List.not_mem_nil (hq.mpr hpos)
  have hnone : (pool s).todo = 0 := by
    ext t
    rw [count_todo, htodo, Multiset.count_zero]
  have hlive : (pool s).live = 0 := by
    show (s.live : Multiset Nat) = 0
    rw [hi.idle hend.2]
    rfl
  refine ⟨htodo, ?_⟩
  rw [← card_work, ← hr.done_eq hnone hlive]
  rfl

/-- One file, to be run twice, one test at a time. -/
def twice : Cfg := { vtcNtest := 2, npar := 1, vtcContinue := true, tdTrsFile := false }

theorem verdict_vtest : verdict (ascii "vtest -v") = .test := by
  have hc : ascii "vtest -v" = 118 :: ascii "test -v" := by decide
  have hskip : skipComments (ascii "vtest -v") = some (118 :: ascii "test -v") := by
    rw [hc, skipComments]
    decide
  rw [verdict, hskip]
  decide

end Files

end Jobs
end VTest
