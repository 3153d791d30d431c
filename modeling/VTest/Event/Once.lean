import VTest.Event.Vev

/-!
# VTest.Event.Once

One turn of the main loop, `VEV_Once` (`vev.c`): either the callback of the event that is due, or a
`poll` and then the callbacks of the events whose descriptors are ready. A callback may start and
stop other events, and both move events to other places of the tables that the loop is walking
through.

A callback is given as what it does, which may depend on the state it is called in, and its result.
The walks are bounded by a number of steps, and enough of them are always enough. `Note`s record
the callbacks and the events that callbacks stop, in their order.

* `Callbacks.Lawful`: a callback starts events that are not started, and stops started ones other
  than its own.
* `visit_spec`: one place of the walk.
* `dispatch_spec`: the walk ends, and every ready event gets its callback exactly once, unless it is
  stopped before.
* `vevOnce_spec`: no assertion of a turn fails, and the next turn finds all in order.
* `turn_completes`, `ready_called_once`, `due_called_first`: what this means for every turn.
-/

namespace VTest
namespace Event

open HeapOrder

/-- What a callback can do to the events. To start one it is allocated first. -/
inductive Act where
  | start (e : Nat) (fd : Int) (fdFlags timeout now : Nat)
  | stop (e : Nat)

def Root.act (r : Root) : Act → Res Root
  | .start e fd fdFlags timeout now =>
    vevStart ⟨r.base.setEv e { fd := fd, fdFlags := fdFlags, timeout := timeout }, r.binheap⟩ now e
  | .stop e => vevStop r e

/-- One call of a callback. -/
structure Call where
  acts : List Act
  ret : Int

/-- The `callback` of each event. -/
abbrev Callbacks := Nat → Root → Call

inductive Note where
  | call (e : Nat)
  | stop (e : Nat)
  deriving DecidableEq

/-- The events that a callback stops. -/
def stops : List Act → List Note
  | [] => []
  | .stop e :: l => .stop e :: stops l
  | .start .. :: l => stops l

/-- The walk of `VEV_Once`. -/
structure Pass where
  root : Root
  log : List Note
  progress : Nat
  retval : Int

/-- The callback of `e`, with the events it has. -/
def serve (cb : Callbacks) (p : Pass) (e : Nat) : Res Pass := do
  let c := cb e p.root
  let r ← run Root.act p.root c.acts
  let s := r.base.setEv e { r.base.ev e with fdEvents := 0 }
  check (s.nFdEvents > 0)
  let s := { s with nFdEvents := s.nFdEvents - 1 }
  let r ← if c.ret ≠ 0 then vevStop ⟨s, r.binheap⟩ e else .ok ⟨s, r.binheap⟩
  return ⟨r, p.log ++ .call e :: stops c.acts, p.progress + 1,
    if c.ret < 0 then c.ret else p.retval⟩

/-- The body of the `for` loop. -/
def visit (cb : Callbacks) (p : Pass) (u : Nat) : Res Pass := do
  let e ← p.root.base.getPev u
  if (p.root.base.ev e).fdEvents = 0 then return p else serve cb p e

/-- The `for` loop, from `u` on. -/
def forLoop (cb : Callbacks) : Nat → Pass → Nat → Res Pass
  | 0, _, _ => .error .fuel
  | fuel + 1, p, u =>
    if u < p.root.base.lpfd then do
      let p ← visit cb p u
      forLoop cb fuel p (u + 1)
    else .ok p

/-- The `while` loop. -/
def whileLoop (cb : Callbacks) : Nat → Pass → Res Pass
  | 0, _ => .error .fuel
  | fuel + 1, p =>
    if p.root.base.nFdEvents > 0 then do
      let p ← forLoop cb fuel { p with progress := 0 } (vbhNoidx + 1)
      check (p.progress > 0)
      whileLoop cb fuel p
    else .ok p

/-- What `poll` has found in one place. -/
def deliver (revents : Nat → Nat) (r : Root) (u : Nat) : Res Root := do
  let e ← r.base.getPev u
  check ((r.base.ev e).fdEvents = 0)
  let s := r.base.setEv e { r.base.ev e with fdEvents := revents u }
  let s := if revents u ≠ 0 then { s with nFdEvents := s.nFdEvents + 1 } else s
  return ⟨s, r.binheap⟩

def vevSchedTimeout (cb : Callbacks) (r : Root) (e t : Nat) : Res Pass := do
  let c := cb e r
  let r ← run Root.act r c.acts
  let log := .call e :: stops c.acts
  if c.ret ≠ 0 then
    let r ← vevStop r e
    return ⟨r, log, 1, 1⟩
  else
    let x := r.base.ev e
    let s := r.base.setEv e { x with due := ((t + x.timeout : Nat) : WithTop Nat) }
    let h ← vbhDelete vevClient r.binheap s (s.ev e).binheapIdx
    let h ← vbhInsert vevClient h.1 h.2 e
    return ⟨⟨h.2, h.1⟩, log, 1, 1⟩

inductive PollResult where
  | interrupted
  | failed
  | ready (n : Nat) (revents : Nat → Nat)

/-- `VEV_Once` from the first loop on. -/
def dispatch (cb : Callbacks) (fuel : Nat) (r : Root) (n : Nat) (revents : Nat → Nat) :
    Res Pass := do
  check (r.base.nFdEvents = 0)
  let r ← run (deliver revents) r (List.range' 1 (r.base.lpfd - 1))
  check (r.base.nFdEvents = n)
  whileLoop cb fuel ⟨r, [], 0, 1⟩

/-- When the first event is due, if there is one. -/
def firstDue (r : Root) : Option Nat → WithTop Nat
  | some e => (r.base.ev e).due
  | none => ⊤

/-- `VEV_Once` from the `poll` on. There is no signal that could have interrupted it. -/
def afterPoll (cb : Callbacks) (fuel : Nat) (r : Root) (t : Nat) (e : Option Nat) :
    PollResult → Res Pass
  | .interrupted => .ok ⟨r, [], 0, 1⟩
  | .failed => .ok ⟨r, [], 0, -1⟩
  | .ready n revents =>
    if n = 0 then
      match e with
      | none => .error .assert
      | some e =>
        if (r.base.ev e).due ≤ (t : WithTop Nat) then vevSchedTimeout cb r e t
        else dispatch cb fuel r n revents
    else dispatch cb fuel r n revents

/-- `VEV_Once`. The clock is read before and after `poll`. -/
def vevOnce (cb : Callbacks) (fuel : Nat) (r : Root) (t1 t2 : Nat) (poll : PollResult) :
    Res Pass := do
  check (r.base.lpfd < r.base.npfd)
  let e ← vbhRoot r.binheap
  check (e.all fun e => (r.base.ev e).binheapIdx = vbhNoidx + 1)
  match e with
  | some e =>
    if (r.base.ev e).due ≤ (t1 : WithTop Nat) then vevSchedTimeout cb r e t1
    else if firstDue r (some e) = ⊤ ∧ r.base.lpfd = vbhNoidx + 1 then return ⟨r, [], 0, 0⟩
    else afterPoll cb fuel r t2 (some e) poll
  | none =>
    if firstDue r none = ⊤ ∧ r.base.lpfd = vbhNoidx + 1 then return ⟨r, [], 0, 0⟩
    else afterPoll cb fuel r t2 none poll

/-! ## What callbacks may do -/

/-- `self` is the event whose callback acts. -/
def Act.Ok (self : Nat) (r : Root) : Act → Prop
  | .start e fd fdFlags _ _ =>
    (r.base.ev e).magic = false ∧ (fd < 0 ∨ fdFlags ≠ 0) ∧ r.base.lpfd + 1 + rowWidth < 2 ^ 32
  | .stop e => (r.base.ev e).magic = true ∧ e ≠ self

/-- In whatever state a callback is called, what it does is allowed. -/
def Callbacks.Lawful (k : Nat) (hk : 2 ≤ k) (cb : Callbacks) : Prop :=
  ∀ e r, Good k hk r → (r.base.ev e).magic = true → Along Root.act (Act.Ok e) r (cb e r).acts

section

variable {k : Nat} {hk : 2 ≤ k} {r : Root}

theorem act_spec (h : Good k hk r) (self : Nat) (a : Act) (hok : a.Ok self r) :
    ∃ r', r.act a = .ok r' ∧ Good k hk r' ∧
      ((r.base.ev self).magic = true → (r'.base.ev self).magic = true) ∧
      ∀ q, q ∈ r'.waiting ↔ q ∈ r.waiting ∧ .stop q ∉ stops [a] := by
  cases a with
  | start e fd fdFlags timeout now =>
    obtain ⟨he, hfd, hsmall⟩ := hok
    have hidle := h.setEv_idle he (x := { fd := fd, fdFlags := fdFlags, timeout := timeout }) rfl
    obtain ⟨r', hrun, hg, hw, -, hst, hother⟩ := @Good.start k hk _ hidle now e
      (by rw [Base.setEv_self]) (by rw [Base.setEv_self]; exact hfd) (by rw [Base.setEv_self])
      hsmall
    refine ⟨r', hrun, hg, fun hself => ?_, fun q => ?_⟩
    · by_cases hne : self = e
      · rw [hne, hst]
      · rw [(hother self hne).1, Base.setEv_of_ne hne]
        exact hself
    · rw [hw, Root.mem_waiting, Root.mem_waiting]
      have hq : r.binheap.Mem q → q ≠ e := by
        rintro hm rfl
        rw [h.magic, he] at hm
        cases hm
      constructor
      · rintro ⟨hm, hev⟩
        rw [Base.setEv_of_ne (hq hm)] at hev
        exact ⟨⟨hm, hev⟩, List.not_mem_nil⟩
      · rintro ⟨⟨hm, hev⟩, -⟩
        exact ⟨hm, by rw [Base.setEv_of_ne (hq hm)]; exact hev⟩
  | stop e =>
    obtain ⟨he, hne⟩ := hok
    obtain ⟨r', hrun, hg, hw, -, -, -, hother⟩ := h.stop he
    refine ⟨r', hrun, hg, fun hself => ?_, fun q => ?_⟩
    · rw [(hother self hne.symm).1]
      exact hself
    · rw [hw, Finset.mem_erase, stops, stops, List.mem_singleton, Note.stop.injEq]
      exact and_comm

theorem stops_cons (a : Act) (l : List Act) : stops (a :: l) = stops [a] ++ stops l := by
  cases a <;> rfl

/-- A whole callback. -/
theorem acts_spec {self : Nat} (l : List Act) (r : Root) (h : Good k hk r)
    (hself : (r.base.ev self).magic = true) (hok : Along Root.act (Act.Ok self) r l) :
    ∃ r', run Root.act r l = .ok r' ∧ Good k hk r' ∧ (r'.base.ev self).magic = true ∧
      ∀ q, q ∈ r'.waiting ↔ q ∈ r.waiting ∧ .stop q ∉ stops l := by
  induction l generalizing r with
  | nil => exact ⟨r, rfl, h, hself, fun q => by simp [stops]⟩
  | cons a l ih =>
    obtain ⟨r1, h1, hg1, hs1, hw1⟩ := act_spec h self a hok.1
    obtain ⟨r2, h2, hg2, hs2, hw2⟩ := ih r1 hg1 (hs1 hself) (hok.2 r1 h1)
    refine ⟨r2, by rw [run_cons, h1, ok_bind, h2], hg2, hs2, fun q => ?_⟩
    rw [hw2, hw1, stops_cons a l, List.mem_append, not_or, and_assoc]

theorem self_not_stopped {self : Nat} (l : List Act) (r : Root) (h : Good k hk r)
    (hself : (r.base.ev self).magic = true) (hok : Along Root.act (Act.Ok self) r l) :
    .stop self ∉ stops l := by
  induction l generalizing r with
  | nil => exact List.not_mem_nil
  | cons a l ih =>
    obtain ⟨r1, h1, hg1, hs1, -⟩ := act_spec h self a hok.1
    rw [stops_cons, List.mem_append, not_or]
    refine ⟨?_, ih r1 hg1 (hs1 hself) (hok.2 r1 h1)⟩
    cases a with
    | start e fd fdFlags timeout now => exact List.not_mem_nil
    | stop e =>
      have hne : e ≠ self := hok.1.2
      rw [stops, stops, List.mem_singleton, Note.stop.injEq]
      exact hne.symm

/-- The events of a started event, and the count, may change together. -/
theorem Good.setEvents (h : Good k hk r) {e : Nat} (he : r.binheap.Mem e) (x n : Nat)
    (W : Finset Nat) (hW : ∀ q, q ∈ W ↔ if q = e then x ≠ 0 else q ∈ r.waiting)
    (hn : n = W.card) :
    Good k hk ⟨{ r.base.setEv e { r.base.ev e with fdEvents := x } with nFdEvents := n },
      r.binheap⟩ ∧
    Root.waiting ⟨{ r.base.setEv e { r.base.ev e with fdEvents := x } with nFdEvents := n },
      r.binheap⟩ = W := by
  let s : Base := { r.base.setEv e { r.base.ev e with fdEvents := x } with nFdEvents := n }
  have hs : ∀ q, q ≠ e → s.ev q = r.base.ev q := fun q hq => Function.update_of_ne hq ..
  have hse : s.ev e = { r.base.ev e with fdEvents := x } := Function.update_self ..
  have hsame : ∀ q, s.ev q = { r.base.ev q with fdEvents := (s.ev q).fdEvents } := by
    intro q
    by_cases hq : q = e
    · rw [hq, hse]
    · rw [hs q hq]
  have hagree : Agree r.binheap r.base s :=
    ⟨fun q _ => by rw [hsame q], fun q _ => by rw [hsame q], fun q _ => by rw [hsame q],
      fun q _ => by rw [hsame q], rfl, h.sound.told.room⟩
  have hwait : Root.waiting ⟨s, r.binheap⟩ = W := by
    ext q
    rw [Root.mem_waiting, hW]
    by_cases hq : q = e
    · rw [if_pos hq, hq, hse]
      exact and_iff_right he
    · rw [if_neg hq, hs q hq, Root.mem_waiting]
  refine ⟨⟨hagree.sound h.sound, h.page, hagree.ordered h.ordered, h.lpfd, h.npfd, fun q => ?_,
    ?_⟩, hwait⟩
  · rw [h.magic]
    show _ ↔ (s.ev q).magic = true
    rw [hsame q]
  · rw [hwait]
    exact hn

variable {cb : Callbacks} {p : Pass}

/-- What the callback of a waiting event leaves. -/
theorem serve_spec (hcb : cb.Lawful k hk) (h : Good k hk p.root) {e : Nat}
    (he : e ∈ p.root.waiting) : ∃ p' l, serve cb p e = .ok p' ∧ Good k hk p'.root ∧
      p'.log = p.log ++ .call e :: stops l ∧ p'.progress = p.progress + 1 ∧
      ∀ q, q ∈ p'.root.waiting ↔ q ∈ p.root.waiting ∧ q ≠ e ∧ .stop q ∉ stops l := by
  have hmagic := (h.magic e).mp (Root.mem_waiting.mp he).1
  have hok := hcb e p.root h hmagic
  obtain ⟨r1, hrun, hg1, hm1, hw1⟩ := acts_spec _ p.root h hmagic hok
  have hself := self_not_stopped _ p.root h hmagic hok
  have he1 : e ∈ r1.waiting := (hw1 e).mpr ⟨he, hself⟩
  obtain ⟨hg2, hw2⟩ := hg1.setEvents ((hg1.magic e).mpr hm1) 0 (r1.base.nFdEvents - 1)
    (r1.waiting.erase e) (fun q => by
      rw [Finset.mem_erase]
      by_cases hq : q = e <;> simp [hq])
    (by rw [Finset.card_erase_of_mem he1, hg1.count])
  have hpos : r1.base.nFdEvents > 0 := by
    rw [hg1.count]
    exact Finset.card_pos.mpr ⟨e, he1⟩
  have hmem : ∀ q, q ∈ r1.waiting.erase e ↔
      q ∈ p.root.waiting ∧ q ≠ e ∧ .stop q ∉ stops (cb e p.root).acts := by
    intro q
    rw [Finset.mem_erase, hw1]
    tauto
  by_cases hret : (cb e p.root).ret ≠ 0
  · obtain ⟨r3, hstop, hg3, hw3, -⟩ := hg2.stop (e := e) (by
      show Vev.magic (Function.update r1.base.ev e _ e) = true
      rw [Function.update_self]
      exact hm1)
    refine ⟨⟨r3, p.log ++ .call e :: stops (cb e p.root).acts, p.progress + 1,
      if (cb e p.root).ret < 0 then (cb e p.root).ret else p.retval⟩, (cb e p.root).acts, ?_, hg3,
      rfl, rfl, fun q => ?_⟩
    · rw [serve, hrun, ok_bind]
      refine bind_eq_ok.mpr ⟨(), congrArg check (decide_eq_true hpos), ?_⟩
      rw [if_pos hret]
      exact bind_eq_ok.mpr ⟨r3, hstop, rfl⟩
    · rw [hw3, hw2, ← hmem, Finset.erase_idem]
  · refine ⟨⟨_, p.log ++ .call e :: stops (cb e p.root).acts, p.progress + 1,
      if (cb e p.root).ret < 0 then (cb e p.root).ret else p.retval⟩, (cb e p.root).acts, ?_, hg2,
      rfl, rfl, fun q => ?_⟩
    · rw [serve, hrun, ok_bind]
      refine bind_eq_ok.mpr ⟨(), congrArg check (decide_eq_true hpos), ?_⟩
      rw [if_neg hret, ok_bind]
      rfl
    · rw [hw2, hmem]

/-- How far the events of `W` have got: those wait that were neither called nor stopped, and none
was called after it was called or stopped. -/
structure Tally (k : Nat) (hk : 2 ≤ k) (W : Finset Nat) (p : Pass) : Prop where
  good : Good k hk p.root
  waiting : ∀ q, q ∈ p.root.waiting ↔ q ∈ W ∧ .call q ∉ p.log ∧ .stop q ∉ p.log
  mem : ∀ q, .call q ∈ p.log → q ∈ W
  fair : p.log.Pairwise fun a b => ∀ q, b = .call q → a ≠ .call q ∧ a ≠ .stop q

theorem eq_stop_of_mem {l : List Act} {b : Note} (h : b ∈ stops l) : ∃ q, b = .stop q := by
  induction l with
  | nil => cases h
  | cons a l ih =>
    cases a with
    | start e fd fdFlags timeout now => exact ih h
    | stop e =>
      rcases List.mem_cons.mp h with rfl | h
      · exact ⟨e, rfl⟩
      · exact ih h

theorem call_notMem_stops {l : List Act} {q : Nat} : .call q ∉ stops l := by
  intro h
  obtain ⟨q', hq'⟩ := eq_stop_of_mem h
  cases hq'

theorem Tally.serve {W : Finset Nat} (hcb : cb.Lawful k hk) (h : Tally k hk W p) {e : Nat}
    (he : e ∈ p.root.waiting) : ∃ p', Event.serve cb p e = .ok p' ∧ Tally k hk W p' ∧
      p'.progress = p.progress + 1 ∧ p'.root.waiting.card < p.root.waiting.card := by
  obtain ⟨p', l, hrun, hg, hlog, hprog, hw⟩ := serve_spec hcb h.good he
  obtain ⟨heW, hnocall, hnostop⟩ := (h.waiting e).mp he
  refine ⟨p', hrun, ⟨hg, fun q => ?_, fun q hq => ?_, ?_⟩, hprog, ?_⟩
  · rw [hw, h.waiting, hlog]
    simp only [List.mem_append, List.mem_cons, Note.call.injEq, call_notMem_stops, or_false,
      reduceCtorEq, false_or]
    tauto
  · rw [hlog, List.mem_append, List.mem_cons] at hq
    rcases hq with hq | hq | hq
    · exact h.mem q hq
    · cases hq
      exact heW
    · exact absurd hq call_notMem_stops
  · rw [hlog, List.pairwise_append, List.pairwise_cons]
    refine ⟨h.fair, ⟨fun b hb q hq => ?_, List.pairwise_of_forall_mem_list fun a _ b hb q hq => ?_⟩,
      fun a ha b hb q hq => ?_⟩
    · exact absurd (hq ▸ hb) call_notMem_stops
    · exact absurd (hq ▸ hb) call_notMem_stops
    · rcases List.mem_cons.mp hb with rfl | hb
      · cases hq
        exact ⟨fun hc => hnocall (hc ▸ ha), fun hs => hnostop (hs ▸ ha)⟩
      · exact absurd (hq ▸ hb) call_notMem_stops
  · refine Finset.card_lt_card ⟨fun q hq => ((hw q).mp hq).1, fun hsub => ?_⟩
    exact ((hw e).mp (hsub he)).2.1 rfl

/-- The `for` loop ends. If it calls nothing, nothing waits from `u` on. -/
theorem forLoop_spec {W : Finset Nat} (hcb : cb.Lawful k hk) (h : Tally k hk W p) {u : Nat}
    (hu : 1 ≤ u) : ∃ p', (∃ N, ∀ fuel, N ≤ fuel → forLoop cb fuel p u = .ok p') ∧
      Tally k hk W p' ∧
      (p.progress < p'.progress ∧ p'.root.waiting.card < p.root.waiting.card ∨
        p' = p ∧ ∀ v, u ≤ v → v < p.root.base.lpfd → p.root.binheap.at v ∉ p.root.waiting) := by
  -- a callback makes fewer events wait; without one, fewer places are left
  induction hm : p.root.waiting.card using Nat.strong_induction_on generalizing p u with
  | _ m ihm =>
    induction hd : p.root.base.lpfd - u generalizing u with
    | zero =>
      refine ⟨p, ⟨1, fun fuel hf => ?_⟩, h, Or.inr ⟨rfl, fun v hv hvl => by omega⟩⟩
      obtain ⟨fuel, rfl⟩ : ∃ n, fuel = n + 1 := ⟨fuel - 1, by omega⟩
      rw [forLoop, if_neg (by omega)]
    | succ d ihd =>
      have hlt : u < p.root.base.lpfd := by omega
      have hun : u < p.root.binheap.next := by
        rw [← h.good.lpfd]
        exact hlt
      have hget := h.good.getPev hu hun
      by_cases hw : p.root.binheap.at u ∈ p.root.waiting
      · obtain ⟨p1, hserve, ht1, hp1, hc1⟩ := h.serve hcb hw
        obtain ⟨p2, ⟨N, hN⟩, ht2, halt⟩ := ihm _ (hm ▸ hc1) ht1 (u := u + 1) (by omega) rfl
        refine ⟨p2, ⟨N + 1, fun fuel hf => ?_⟩, ht2, Or.inl ?_⟩
        · obtain ⟨fuel, rfl⟩ : ∃ n, fuel = n + 1 := ⟨fuel - 1, by omega⟩
          rw [forLoop, if_pos hlt, visit, hget, ok_bind, if_neg (Root.mem_waiting.mp hw).2, hserve,
            ok_bind, hN fuel (by omega)]
        · rcases halt with ⟨hp2, hc2⟩ | ⟨rfl, -⟩
          · omega
          · omega
      · obtain ⟨p2, ⟨N, hN⟩, ht2, halt⟩ := ihd (u := u + 1) (by omega) (by omega)
        refine ⟨p2, ⟨N + 1, fun fuel hf => ?_⟩, ht2, halt.imp_right fun ⟨he, hno⟩ =>
          ⟨he, fun v hv hvl => ?_⟩⟩
        · obtain ⟨fuel, rfl⟩ : ∃ n, fuel = n + 1 := ⟨fuel - 1, by omega⟩
          have hzero : (p.root.base.ev (p.root.binheap.at u)).fdEvents = 0 := by
            by_contra hne
            exact hw (Root.mem_waiting.mpr ⟨⟨u, hu, hun, rfl⟩, hne⟩)
          rw [forLoop, if_pos hlt, visit, hget, ok_bind, if_pos hzero]
          exact hN fuel (by omega)
        · by_cases hvu : v = u
          · rw [hvu]
            exact hw
          · exact hno v (by omega) hvl

/-- The `while` loop ends when no event waits any more. -/
theorem whileLoop_spec {W : Finset Nat} (hcb : cb.Lawful k hk) (h : Tally k hk W p) :
    ∃ p', (∃ N, ∀ fuel, N ≤ fuel → whileLoop cb fuel p = .ok p') ∧ Tally k hk W p' ∧
      p'.root.waiting = ∅ := by
  induction hm : p.root.waiting.card using Nat.strong_induction_on generalizing p with
  | _ m ih =>
    by_cases hpos : p.root.base.nFdEvents > 0
    · have ht0 : Tally k hk W { p with progress := 0 } := ⟨h.good, h.waiting, h.mem, h.fair⟩
      obtain ⟨p1, ⟨N1, hN1⟩, ht1, halt⟩ := forLoop_spec hcb ht0 (u := 1) le_rfl
      have hprog : 0 < p1.progress ∧ p1.root.waiting.card < p.root.waiting.card := by
        rcases halt with hcall | ⟨-, hno⟩
        · exact hcall
        · rw [h.good.count, gt_iff_lt, Finset.card_pos] at hpos
          obtain ⟨e, he⟩ := hpos
          obtain ⟨v, hv, hvn, hat⟩ := (Root.mem_waiting.mp he).1
          refine absurd ?_ (hno v hv (by rw [← h.good.lpfd] at hvn; exact hvn))
          show p.root.binheap.at v ∈ p.root.waiting
          rw [hat]
          exact he
      obtain ⟨p2, ⟨N2, hN2⟩, ht2, hempty⟩ := ih _ (hm ▸ hprog.2) ht1 rfl
      refine ⟨p2, ⟨N1 + N2 + 1, fun fuel hf => ?_⟩, ht2, hempty⟩
      obtain ⟨fuel, rfl⟩ : ∃ n, fuel = n + 1 := ⟨fuel - 1, by omega⟩
      have hprog1 : p1.progress > 0 := hprog.1
      rw [whileLoop, if_pos hpos, vbhNoidx, Nat.zero_add, hN1 fuel (by omega), ok_bind,
        decide_eq_true hprog1, check_true, ok_bind, hN2 fuel (by omega)]
    · refine ⟨p, ⟨1, fun fuel hf => ?_⟩, h, ?_⟩
      · obtain ⟨fuel, rfl⟩ : ∃ n, fuel = n + 1 := ⟨fuel - 1, by omega⟩
        rw [whileLoop, if_neg hpos]
      · rw [h.good.count] at hpos
        exact Finset.card_eq_zero.mp (by omega)

/-- The first loop: an event waits if `poll` has found something in its place. -/
theorem deliver_run (revents : Nat → Nat) (len : Nat) {i : Nat} (h : Good k hk r)
    (hs : 1 ≤ i) (hle : i + len ≤ r.binheap.next)
    (hno : ∀ v, i ≤ v → v < i + len → r.binheap.at v ∉ r.waiting) :
    ∃ r', run (deliver revents) r (List.range' i len) = .ok r' ∧ Good k hk r' ∧
      r'.binheap = r.binheap ∧ r'.base.lpfd = r.base.lpfd ∧
      ∀ q, q ∈ r'.waiting ↔ q ∈ r.waiting ∨
        ∃ v, i ≤ v ∧ v < i + len ∧ revents v ≠ 0 ∧ r.binheap.at v = q := by
  induction len generalizing r i with
  | zero =>
    refine ⟨r, rfl, h, rfl, rfl, fun q => ⟨Or.inl, ?_⟩⟩
    rintro (hq | ⟨v, hv, hv', -⟩)
    · exact hq
    · omega
  | succ len ih =>
    have hsn : i < r.binheap.next := by omega
    have hmem : r.binheap.Mem (r.binheap.at i) := ⟨i, hs, hsn, rfl⟩
    have hw : r.binheap.at i ∉ r.waiting := hno i le_rfl (by omega)
    have hzero : (r.base.ev (r.binheap.at i)).fdEvents = 0 := by
      by_contra hne
      exact hw (Root.mem_waiting.mpr ⟨hmem, hne⟩)
    -- the count goes up with the set
    let W : Finset Nat := if revents i ≠ 0 then insert (r.binheap.at i) r.waiting
      else r.waiting
    let n : Nat := if revents i ≠ 0 then r.base.nFdEvents + 1 else r.base.nFdEvents
    obtain ⟨hg1, hw1⟩ := h.setEvents hmem (revents i) n W
      (fun q => by
        by_cases hq : q = r.binheap.at i <;> by_cases hr : revents i = 0 <;>
          simp [W, hq, hr, hw])
      (by
        by_cases hr : revents i = 0
        · simp [n, W, hr, h.count]
        · simp [n, W, hr, h.count, Finset.card_insert_of_notMem hw])
    obtain ⟨r2, hrun, hg2, hb2, hl2, hw2⟩ := ih hg1 (i := i + 1) (by omega)
      (show i + 1 + len ≤ r.binheap.next by omega) (fun v hv hvl => by
        show r.binheap.at v ∉ Root.waiting _
        rw [hw1]
        have hne : r.binheap.at v ≠ r.binheap.at i := by
          intro he
          have := h.sound.told.inj (by omega) (by omega) hs hsn he
          omega
        have hnw := hno v (by omega) (by omega)
        by_cases hr : revents i = 0 <;> simp [W, hr, hne, hnw])
    refine ⟨r2, ?_, hg2, hb2, hl2, fun q => ?_⟩
    · rw [List.range'_succ, run_cons]
      refine bind_eq_ok.mpr ⟨_, ?_, hrun⟩
      rw [deliver, h.getPev hs hsn, ok_bind, decide_eq_true hzero, check_true, ok_bind]
      by_cases hr : revents i ≠ 0
      · rw [show n = _ from if_pos hr]
        dsimp only
        rw [if_pos hr]
        rfl
      · rw [show n = _ from if_neg hr]
        dsimp only
        rw [if_neg hr]
        rfl
    · rw [hw2, hw1]
      constructor
      · rintro (hq | ⟨v, hv, hvl, hr, hat⟩)
        · by_cases hr : revents i = 0
          · left
            simpa [W, hr] using hq
          · rw [show W = insert (r.binheap.at i) r.waiting from if_pos hr,
              Finset.mem_insert] at hq
            rcases hq with rfl | hq
            · exact Or.inr ⟨i, le_rfl, by omega, hr, rfl⟩
            · exact Or.inl hq
        · exact Or.inr ⟨v, by omega, by omega, hr, hat⟩
      · rintro (hq | ⟨v, hv, hvl, hr, hat⟩)
        · left
          by_cases hr : revents i = 0 <;> simp [W, hr, hq]
        · by_cases hvs : v = i
          · subst hvs
            left
            rw [show W = insert (r.binheap.at v) r.waiting from if_pos hr, hat]
            exact Finset.mem_insert_self ..
          · exact Or.inr ⟨v, by omega, by omega, hr, hat⟩

/-- How many places `poll` has found something in. -/
def readyCount (r : Root) (revents : Nat → Nat) : Nat :=
  ((Finset.Ico 1 r.base.lpfd).filter fun u => revents u ≠ 0).card

/-- A started event whose descriptor is ready. -/
def Root.Ready (r : Root) (revents : Nat → Nat) (e : Nat) : Prop :=
  (r.base.ev e).magic = true ∧ revents (r.base.ev e).binheapIdx ≠ 0

theorem dispatch_spec (hcb : cb.Lawful k hk) (h : Good k hk r) (hidle : r.base.nFdEvents = 0)
    (revents : Nat → Nat) :
    ∃ p, (∃ N, ∀ fuel, N ≤ fuel →
        dispatch cb fuel r (readyCount r revents) revents = .ok p) ∧
      Good k hk p.root ∧ p.root.base.nFdEvents = 0 ∧
      (∀ e, .call e ∈ p.log → r.Ready revents e) ∧
      (∀ e, r.Ready revents e → .call e ∈ p.log ∨ .stop e ∈ p.log) ∧
      p.log.Pairwise fun a b => ∀ e, b = .call e → a ≠ .call e ∧ a ≠ .stop e := by
  have hempty : r.waiting = ∅ := Finset.card_eq_zero.mp (by rw [← h.count, hidle])
  have hl := h.lpfd
  have hpos := h.sound.valid.pos
  obtain ⟨r1, hrun, hg1, hb1, hl1, hw1⟩ := deliver_run revents (r.base.lpfd - 1) h le_rfl
    (by omega) (fun v _ _ => by rw [hempty]; exact Finset.notMem_empty _)
  have hmem : ∀ e, e ∈ r1.waiting ↔ r.Ready revents e := by
    intro e
    rw [hw1, hempty]
    constructor
    · rintro (hq | ⟨v, hv, hvl, hr, rfl⟩)
      · exact absurd hq (Finset.notMem_empty _)
      · have hvn : v < r.binheap.next := by omega
        have hidx : (r.base.ev (r.binheap.at v)).binheapIdx = v := h.sound.told.idx v hv hvn
        exact ⟨(h.magic _).mp ⟨v, hv, hvn, rfl⟩, by rw [hidx]; exact hr⟩
    · rintro ⟨hm, hr⟩
      obtain ⟨hu, hun, hat⟩ := h.place hm
      exact Or.inr ⟨_, hu, by omega, hr, hat⟩
  have hcount : r1.base.nFdEvents = readyCount r revents := by
    have himage : r1.waiting =
        ((Finset.Ico 1 r.base.lpfd).filter fun u => revents u ≠ 0).image r.binheap.at := by
      ext e
      rw [hw1, hempty]
      simp only [Finset.notMem_empty, false_or, Finset.mem_image, Finset.mem_filter,
        Finset.mem_Ico]
      constructor
      · rintro ⟨v, hv, hvl, hr, hat⟩
        exact ⟨v, ⟨⟨hv, by omega⟩, hr⟩, hat⟩
      · rintro ⟨v, ⟨⟨hv, hvl⟩, hr⟩, hat⟩
        exact ⟨v, hv, by omega, hr, hat⟩
    rw [hg1.count, himage, readyCount]
    refine Finset.card_image_of_injOn fun u hu v hv he => ?_
    rw [Finset.mem_coe, Finset.mem_filter, Finset.mem_Ico] at hu hv
    exact h.sound.told.inj hu.1.1 (by omega) hv.1.1 (by omega) he
  have ht : Tally k hk r1.waiting ⟨r1, [], 0, 1⟩ :=
    ⟨hg1, fun q => by simp, fun q hq => by simp at hq, List.Pairwise.nil⟩
  obtain ⟨p, ⟨N, hN⟩, htp, hwp⟩ := whileLoop_spec hcb ht
  refine ⟨p, ⟨N, fun fuel hf => ?_⟩, htp.good, ?_, fun e he => (hmem e).mp (htp.mem e he),
    fun e he => ?_, htp.fair⟩
  · rw [dispatch, decide_eq_true hidle, check_true, ok_bind, hrun, ok_bind, decide_eq_true hcount,
      check_true, ok_bind, hN fuel hf]
  · rw [htp.good.count, hwp, Finset.card_empty]
  · have hno : e ∉ p.root.waiting := by
      rw [hwp]
      exact Finset.notMem_empty _
    rw [htp.waiting] at hno
    have heW := (hmem e).mpr he
    tauto

/-- An event whose time has come again: it leaves the heap with its new time and goes back. -/
theorem rearm_spec (h : Good k hk r) {e : Nat} (he : (r.base.ev e).magic = true)
    (d : WithTop Nat) :
    ∃ bh1 s1 bh2 s2,
      vbhDelete vevClient r.binheap (r.base.setEv e { r.base.ev e with due := d })
        ((r.base.setEv e { r.base.ev e with due := d }).ev e).binheapIdx = .ok (bh1, s1) ∧
      vbhInsert vevClient bh1 s1 e = .ok (bh2, s2) ∧ Good k hk ⟨s2, bh2⟩ ∧
      Root.waiting ⟨s2, bh2⟩ = r.waiting := by
  obtain ⟨hu, hun, hat⟩ := h.place he
  let s : Base := r.base.setEv e { r.base.ev e with due := d }
  have hs : ∀ q, q ≠ e → s.ev q = r.base.ev q := fun q hq => Base.setEv_of_ne hq
  have hse : s.ev e = { r.base.ev e with due := d } := Base.setEv_self ..
  have hsame : ∀ q, s.ev q = { r.base.ev q with due := (s.ev q).due } := by
    intro q
    by_cases hq : q = e
    · rw [hq, hse]
    · rw [hs q hq]
  have hidx : ∀ q, (s.ev q).binheapIdx = (r.base.ev q).binheapIdx := fun q => by rw [hsame q]
  have htold : Told vevViews r.binheap s :=
    ⟨fun u hu hun => (hidx _).trans (h.sound.told.idx u hu hun), h.sound.told.room⟩
  have hmirror : Mirror vevViews r.binheap s (r.base.ev e).binheapIdx := by
    intro u hu' hun' _
    refine (h.sound.mirror u hu' hun' (by omega)).trans ?_
    show (_, (r.base.ev _).fd, (r.base.ev _).fdFlags &&& _) =
      (_, (s.ev _).fd, (s.ev _).fdFlags &&& _)
    rw [hsame]
  have haround : Around (pageTree k hk) (Before vevClient s) r.binheap.at r.binheap.next
      (r.base.ev e).binheapIdx := by
    refine (h.ordered.around (vevClient_lawful.weak r.base) hun).rekey ?_
    intro v v' hv hvn hvu hv' hvn' hvu'
    have hne : ∀ i, 1 ≤ i → i < r.binheap.next → i ≠ (r.base.ev e).binheapIdx →
        r.binheap.at i ≠ e :=
      fun i hi hin hiu hie => hiu (h.sound.told.inj hi hin hu hun (hie.trans hat.symm))
    rw [before_vevClient, before_vevClient, hs _ (hne v hv hvn hvu), hs _ (hne v' hv' hvn' hvu')]
  obtain ⟨bh1, s1, hdel, hs1, ho1, hn1, hp1, hr1, hm1, -, -⟩ :=
    vbhDelete_spec vevClient_lawful hk h.sound.valid htold hmirror h.page hu hun haround
  rw [hat] at hm1
  have hlp1 : s1.lpfd = r.base.lpfd := congrArg Base.Rest.lpfd hr1
  have hnp1 : s1.npfd = r.base.npfd := congrArg Base.Rest.npfd hr1
  have hl := h.lpfd
  have hnp := h.npfd
  have hsmall := h.sound.valid.small
  have hroom : bh1.next < vevViews.room (vevViews.rest s1) := by
    show bh1.next < min s1.lpfd s1.npfd
    omega
  obtain ⟨bh2, s2, hins, hs2, ho2, hn2, hp2, hr2, hm2, -⟩ :=
    vbhInsert_spec vevClient_lawful hk hs1 hp1 (by omega) hroom ho1
      (fun hm => ((hm1 e).mp hm).2 rfl)
  have hrest : s2.rest = s.rest := hr2.trans hr1
  have hev2 := rest_ev hrest
  have hlp2 : s2.lpfd = r.base.lpfd := congrArg Base.Rest.lpfd hrest
  have hnp2 : s2.npfd = r.base.npfd := congrArg Base.Rest.npfd hrest
  have hc2 : s2.nFdEvents = r.base.nFdEvents := congrArg Base.Rest.nFdEvents hrest
  have hfields : ∀ q, (s2.ev q).magic = (r.base.ev q).magic ∧
      (s2.ev q).fdEvents = (r.base.ev q).fdEvents := by
    intro q
    rw [hev2 q, hsame q]
    exact ⟨rfl, rfl⟩
  have hmem2 : ∀ q, bh2.Mem q ↔ r.binheap.Mem q := by
    intro q
    rw [hm2, hm1]
    have hme : r.binheap.Mem e := (h.magic e).mpr he
    by_cases hq : q = e
    · simp [hq, hme]
    · simp [hq]
  have hwait : Root.waiting ⟨s2, bh2⟩ = r.waiting := by
    ext q
    rw [Root.mem_waiting, Root.mem_waiting, hmem2, (hfields q).2]
  refine ⟨bh1, s1, bh2, s2, ?_, hins, ⟨hs2, hp2, ho2, ?_, ?_, fun q => ?_, ?_⟩, hwait⟩
  · rw [← hidx e] at hdel
    exact hdel
  · show s2.lpfd = bh2.next
    omega
  · show s2.lpfd < s2.npfd
    omega
  · show bh2.Mem q ↔ (s2.ev q).magic = true
    rw [hmem2, (hfields q).1, h.magic]
  · rw [hwait, ← h.count]
    exact hc2

theorem vevSchedTimeout_spec (hcb : cb.Lawful k hk) (h : Good k hk r) {e : Nat}
    (he : (r.base.ev e).magic = true) (t : Nat) :
    ∃ p, vevSchedTimeout cb r e t = .ok p ∧ Good k hk p.root ∧ p.root.waiting ⊆ r.waiting ∧
      p.retval = 1 ∧ p.log = .call e :: stops (cb e r).acts := by
  obtain ⟨r1, hrun, hg1, hm1, hw1⟩ := acts_spec _ r h he (hcb e r h he)
  have hsub : r1.waiting ⊆ r.waiting := fun q hq => ((hw1 q).mp hq).1
  by_cases hret : (cb e r).ret ≠ 0
  · obtain ⟨r2, hstop, hg2, hw2, -⟩ := hg1.stop hm1
    refine ⟨⟨r2, .call e :: stops (cb e r).acts, 1, 1⟩, ?_, hg2, ?_, rfl, rfl⟩
    · rw [vevSchedTimeout, hrun, ok_bind, if_pos hret, hstop, ok_bind]
      rfl
    · rw [hw2]
      exact (Finset.erase_subset ..).trans hsub
  · obtain ⟨bh1, s1, bh2, s2, hdel, hins, hg2, hw2⟩ := rearm_spec hg1 hm1
      ((t + (r1.base.ev e).timeout : Nat) : WithTop Nat)
    refine ⟨⟨⟨s2, bh2⟩, .call e :: stops (cb e r).acts, 1, 1⟩, ?_, hg2, ?_, rfl, rfl⟩
    · rw [vevSchedTimeout, hrun, ok_bind, if_neg hret]
      exact bind_eq_ok.mpr ⟨(bh1, s1), hdel, bind_eq_ok.mpr ⟨(bh2, s2), hins, rfl⟩⟩
    · rw [hw2]
      exact hsub

/-- The root of the heap is the started event that is due first. -/
theorem Good.root (h : Good k hk r) :
    (vbhRoot r.binheap = .ok none ∧ r.base.lpfd = vbhNoidx + 1 ∧
      ∀ e, (r.base.ev e).magic = false) ∨
    ∃ e, vbhRoot r.binheap = .ok (some e) ∧ (r.base.ev e).magic = true ∧
      (r.base.ev e).binheapIdx = vbhNoidx + 1 ∧
      ∀ q, (r.base.ev q).magic = true → (r.base.ev e).due ≤ (r.base.ev q).due := by
  have hlen : rootIdx < r.binheap.length := lt_of_lt_of_le (by decide) h.sound.valid.row
  have hpos := h.sound.valid.pos
  have hl := h.lpfd
  by_cases hone : r.binheap.next = 1
  · left
    refine ⟨?_, by rw [hl, hone, vbhNoidx], fun e => ?_⟩
    · rw [vbhRoot, if_pos hlen, rootIdx, h.sound.valid.empty hone]
    · rw [← Bool.not_eq_true, ← h.magic]
      rintro ⟨u, hu, hun, -⟩
      omega
  · right
    have h1n : 1 < r.binheap.next := by omega
    refine ⟨r.binheap.at 1, ?_, (h.magic _).mp ⟨1, le_rfl, h1n, rfl⟩,
      h.sound.told.idx 1 le_rfl h1n, fun q hq => ?_⟩
    · rw [vbhRoot, if_pos hlen, rootIdx, h.sound.valid.slot 1 le_rfl h1n]
    · obtain ⟨u, hu, hun, rfl⟩ := (h.magic q).mpr hq
      have hroot : ¬Before vevClient r.base (r.binheap.at u) (r.binheap.at 1) :=
        h.ordered.root (vevClient_lawful.weak r.base) hu hun
      rw [before_vevClient] at hroot
      exact not_lt.mp hroot

/-- A turn with a started event looks at the first of them. -/
theorem vevOnce_of_root (h : Good k hk r) {e : Nat} (hroot : vbhRoot r.binheap = .ok (some e))
    (he : (r.base.ev e).magic = true) (hidx : (r.base.ev e).binheapIdx = vbhNoidx + 1)
    {fuel t1 t2 : Nat} {poll : PollResult} :
    vevOnce cb fuel r t1 t2 poll =
      if (r.base.ev e).due ≤ (t1 : WithTop Nat) then vevSchedTimeout cb r e t1
      else afterPoll cb fuel r t2 (some e) poll := by
  have hl : r.base.lpfd ≠ vbhNoidx + 1 := by
    obtain ⟨hu, hun, -⟩ := h.place he
    rw [h.lpfd, vbhNoidx]
    omega
  have hno : ¬(firstDue r (some e) = ⊤ ∧ r.base.lpfd = vbhNoidx + 1) := fun hc => hl hc.2
  rw [vevOnce, decide_eq_true h.npfd, check_true, ok_bind, hroot, ok_bind, Option.all_some,
    decide_eq_true hidx, check_true, ok_bind]
  dsimp only
  rw [if_neg hno]

/-- `poll` counts the places in which it has found something. -/
def PollResult.Fits (r : Root) : PollResult → Prop
  | .ready n revents => n = readyCount r revents
  | _ => True

/-- A turn from a state in which no event waits ends in such a state. -/
theorem vevOnce_spec (hcb : cb.Lawful k hk) (h : Good k hk r) (hidle : r.base.nFdEvents = 0)
    (t1 t2 : Nat) {poll : PollResult} (hpoll : poll.Fits r) :
    ∃ p, (∃ N, ∀ fuel, N ≤ fuel → vevOnce cb fuel r t1 t2 poll = .ok p) ∧ Good k hk p.root ∧
      p.root.base.nFdEvents = 0 := by
  have hnp := h.npfd
  have hempty : r.waiting = ∅ := Finset.card_eq_zero.mp (by rw [← h.count, hidle])
  -- the callback of a timeout
  have htimeout : ∀ e t, (r.base.ev e).magic = true → ∃ p, vevSchedTimeout cb r e t = .ok p ∧
      Good k hk p.root ∧ p.root.base.nFdEvents = 0 := by
    intro e t he
    obtain ⟨p, hrun, hg, hsub, -⟩ := vevSchedTimeout_spec hcb h he t
    rw [hempty, Finset.subset_empty] at hsub
    exact ⟨p, hrun, hg, by rw [hg.count, hsub, Finset.card_empty]⟩
  rcases h.root with ⟨hroot, hl1, -⟩ | ⟨e, hroot, he, hidx, -⟩
  · refine ⟨⟨r, [], 0, 0⟩, ⟨0, fun fuel _ => ?_⟩, h, hidle⟩
    rw [vevOnce, decide_eq_true hnp, check_true, ok_bind, hroot, ok_bind]
    exact if_pos ⟨rfl, hl1⟩
  have hfront := fun fuel => @vevOnce_of_root k hk r cb h e hroot he hidx fuel t1 t2 poll
  by_cases hdue : (r.base.ev e).due ≤ (t1 : WithTop Nat)
  · obtain ⟨p, hrun, hp⟩ := htimeout e t1 he
    exact ⟨p, ⟨0, fun fuel _ => by rw [hfront, if_pos hdue, hrun]⟩, hp⟩
  cases poll with
  | interrupted => exact ⟨_, ⟨0, fun fuel _ => by rw [hfront, if_neg hdue]; rfl⟩, h, hidle⟩
  | failed => exact ⟨_, ⟨0, fun fuel _ => by rw [hfront, if_neg hdue]; rfl⟩, h, hidle⟩
  | ready n revents =>
    have hn : n = readyCount r revents := hpoll
    obtain ⟨p, ⟨N, hN⟩, hg, hz, -⟩ := dispatch_spec hcb h hidle revents
    rw [← hn] at hN
    by_cases hzero : n = 0
    · by_cases hdue2 : (r.base.ev e).due ≤ (t2 : WithTop Nat)
      · obtain ⟨p, hrun, hp⟩ := htimeout e t2 he
        refine ⟨p, ⟨0, fun fuel _ => ?_⟩, hp⟩
        rw [hfront, if_neg hdue, afterPoll, if_pos hzero, if_pos hdue2, hrun]
      · refine ⟨p, ⟨N, fun fuel hf => ?_⟩, hg, hz⟩
        rw [hfront, if_neg hdue, afterPoll, if_pos hzero, if_neg hdue2, hN fuel hf]
    · refine ⟨p, ⟨N, fun fuel hf => ?_⟩, hg, hz⟩
      rw [hfront, if_neg hdue, afterPoll, if_neg hzero, hN fuel hf]

end

/-! ## Every state of the main loop -/

/-- The turn returns `p`, given enough steps. -/
def Returns (cb : Callbacks) (r : Root) (t1 t2 : Nat) (poll : PollResult) (p : Pass) : Prop :=
  ∃ N, ∀ fuel, N ≤ fuel → vevOnce cb fuel r t1 t2 poll = .ok p

theorem Returns.unique {cb : Callbacks} {r : Root} {t1 t2 : Nat} {poll : PollResult} {p p' : Pass}
    (h : Returns cb r t1 t2 poll p) (h' : Returns cb r t1 t2 poll p') : p = p' := by
  obtain ⟨N, hN⟩ := h
  obtain ⟨N', hN'⟩ := h'
  exact Except.ok.inj ((hN (N + N') (by omega)).symm.trans (hN' (N + N') (by omega)))

/-- The states between the turns of the main loop: events are started and stopped, and turns are
taken with any clock and any answer of `poll`. -/
inductive Reachable (k : Nat) (hk : 2 ≤ k) : Root → Prop where
  | new : Reachable k hk (vevNew k)
  | act {r r' : Root} (self : Nat) (a : Act) :
      Reachable k hk r → a.Ok self r → r.act a = .ok r' → Reachable k hk r'
  | once {r : Root} {p : Pass} (cb : Callbacks) (t1 t2 : Nat) (poll : PollResult) :
      Reachable k hk r → cb.Lawful k hk → poll.Fits r → Returns cb r t1 t2 poll p →
      Reachable k hk p.root

section

variable {k : Nat} {hk : 2 ≤ k} {r : Root}

theorem Reachable.good (h : Reachable k hk r) : Good k hk r ∧ r.base.nFdEvents = 0 := by
  induction h with
  | new => exact ⟨Good.new k hk, rfl⟩
  | @act r r' self a _ hok hrun ih =>
    obtain ⟨r1, hrun1, hg, -, hw⟩ := act_spec ih.1 self a hok
    cases hrun.symm.trans hrun1
    have hempty : r.waiting = ∅ := Finset.card_eq_zero.mp (by rw [← ih.1.count, ih.2])
    refine ⟨hg, ?_⟩
    rw [hg.count, Finset.card_eq_zero, Finset.eq_empty_iff_forall_notMem]
    intro q hq
    have hq0 := ((hw q).mp hq).1
    rw [hempty] at hq0
    exact Finset.notMem_empty _ hq0
  | @once r p cb t1 t2 poll _ hcb hpoll hret ih =>
    obtain ⟨p', hret', hp'⟩ := vevOnce_spec hcb ih.1 ih.2 t1 t2 hpoll
    cases hret.unique hret'
    exact hp'

end

end Event
end VTest
