import VTest.Event.Vbh

/-!
# VTest.Event.Vev

The events of the main loop (`vev.c`): `VEV_Start` and `VEV_Stop`. Every event that is started is
in the binary heap, ordered by when it is due. The heap tells `vev_bh_update` about every place that
an event comes to, and the event gets the same place in the tables `pev` and `pfd`, so that the
second is ready for `poll`.

An event is known by its address. Times are numbers, and the time 9e99 of an event without a timeout
is the greatest of them. That `evb` and the events are what they should be (`CHECK_OBJ`,
`CAST_OBJ`) is left out, but for the mark `magic`, which says that an event is started. No event of
`vtest` waits for a signal, and signals are left out.

* `vevViews`, `vevClient_lawful`: what the heap has to know of the two callbacks.
* `Good`: the heap, the tables and the count of waiting events agree.
* `Good.start`, `Good.stop`: `VEV_Start` and `VEV_Stop` keep this, and none of their assertions
  fails.
-/

namespace VTest
namespace Event

open HeapOrder

/-- `struct vev`. -/
structure Vev where
  magic : Bool := false
  fd : Int := -1
  fdFlags : Nat := 0
  fdEvents : Nat := 0
  timeout : Nat := 0
  due : WithTop Nat := 0
  binheapIdx : Nat := 0

structure Pollfd where
  fd : Int
  events : Nat
  revents : Nat

/-- `struct vev_root` without its heap, and the events by their address. A place of `pev` that was
not written since `realloc` is `none`. -/
structure Base where
  nFdEvents : Nat
  pfd : Nat → Pollfd
  pev : Nat → Option Nat
  npfd : Nat
  lpfd : Nat
  ev : Nat → Vev

/-- `struct vev_root`. -/
structure Root where
  base : Base
  binheap : Vbh Nat

/-- `VEV__RD|VEV__WR|VEV__ERR|VEV__HUP`. -/
def pollMask : Nat := 0x1 ||| 0x4 ||| 0x8 ||| 0x10

namespace Base

def setEv (s : Base) (e : Nat) (x : Vev) : Base := { s with ev := Function.update s.ev e x }

@[simp] theorem setEv_self (s : Base) (e : Nat) (x : Vev) : (s.setEv e x).ev e = x :=
  Function.update_self ..

theorem setEv_of_ne {s : Base} {e q : Nat} {x : Vev} (h : q ≠ e) :
    (s.setEv e x).ev q = s.ev q :=
  Function.update_of_ne h ..

/-- `evb->pev[u]`. -/
def getPev (s : Base) (u : Nat) : Res Nat :=
  if u < s.npfd then
    match s.pev u with
    | some e => .ok e
    | none => .error .ub
  else .error .ub

end Base

def vevBhUpdate (s : Base) (e u : Nat) : Res Base := do
  check (u < s.lpfd)
  let s := s.setEv e { s.ev e with binheapIdx := u }
  if u ≠ vbhNoidx then
    if u < s.npfd then
      return { s with
        pev := Function.update s.pev u (some e)
        pfd := Function.update s.pfd u
          { s.pfd u with fd := (s.ev e).fd, events := (s.ev e).fdFlags &&& pollMask } }
    else .error .ub
  else return s

def vevBhCmp (s : Base) (a b : Nat) : Bool := (s.ev a).due < (s.ev b).due

def vevClient : Client Base Nat where
  cmp := vevBhCmp
  update := vevBhUpdate

def vevGetPfd (s : Base) : Base :=
  if s.lpfd + 1 < s.npfd then s
  else
    { s with
      npfd := if s.npfd < 8 then 8 else if s.npfd > 256 then s.npfd + 256 else s.npfd * 2 }

/-- `s` is the `page_shift` of the heap. -/
def vevNew (s : Nat) : Root where
  base := vevGetPfd
    { nFdEvents := 0, pfd := fun _ => ⟨0, 0, 0⟩, pev := fun _ => none, npfd := 0,
      lpfd := vbhNoidx + 1, ev := fun _ => {} }
  binheap := vbhNew s

def vevStart (r : Root) (now e : Nat) : Res Root := do
  check (!(r.base.ev e).magic)
  check ((r.base.ev e).fd < 0 ∨ (r.base.ev e).fdFlags ≠ 0)
  let s := vevGetPfd r.base
  let x := s.ev e
  let s := s.setEv e
    { x with
      magic := true
      due := if x.timeout ≠ 0 then x.due + ((now + x.timeout : Nat) : WithTop Nat) else ⊤ }
  let s := { s with lpfd := s.lpfd + 1 }
  let h ← vbhInsert vevClient r.binheap s e
  check ((h.2.ev e).binheapIdx ≠ vbhNoidx)
  return ⟨h.2, h.1⟩

/-- The count of events that still wait for their callback, at the end of `VEV_Stop`. -/
def unwait (s : Base) (e : Nat) : Res Base :=
  if (s.ev e).fdEvents ≠ 0 then do
    check (s.nFdEvents > 0)
    return { s.setEv e { s.ev e with fdEvents := 0 } with nFdEvents := s.nFdEvents - 1 }
  else .ok s

def vevStop (r : Root) (e : Nat) : Res Root := do
  check (r.base.ev e).magic
  let p ← r.base.getPev (r.base.ev e).binheapIdx
  check (p = e)
  check ((r.base.ev e).binheapIdx ≠ vbhNoidx)
  let s := r.base.setEv e { r.base.ev e with fd := -1 }
  let h ← vbhDelete vevClient r.binheap s (s.ev e).binheapIdx
  check ((h.2.ev e).binheapIdx = vbhNoidx)
  let s := { h.2 with lpfd := h.2.lpfd - 1 }
  let s ← unwait s e
  return ⟨s.setEv e { s.ev e with magic := false }, h.1⟩

/-! ## What the heap knows of the callbacks -/

/-- What `vev_bh_update` leaves alone. -/
structure Base.Rest where
  nFdEvents : Nat
  npfd : Nat
  lpfd : Nat
  revents : Nat → Nat
  ev : Nat → Vev

def Base.rest (s : Base) : Base.Rest where
  nFdEvents := s.nFdEvents
  npfd := s.npfd
  lpfd := s.lpfd
  revents u := (s.pfd u).revents
  ev e := { s.ev e with binheapIdx := 0 }

def vevViews : Views Base Base.Rest (Option Nat × Int × Nat) Nat where
  idx s e := (s.ev e).binheapIdx
  tab s u := (s.pev u, (s.pfd u).fd, (s.pfd u).events)
  rest := Base.rest
  room s := min s.lpfd s.npfd
  entry s e := (some e, (s.ev e).fd, (s.ev e).fdFlags &&& pollMask)

theorem before_vevClient {s : Base} {a b : Nat} :
    Before vevClient s a b ↔ (s.ev a).due < (s.ev b).due :=
  decide_eq_true_iff

theorem due_of_rest {s s' : Base} (h : s'.rest = s.rest) (e : Nat) :
    (s'.ev e).due = (s.ev e).due := by
  have := congrArg (fun x => (x.ev e).due) h
  exact this

theorem vevClient_lawful : vevClient.Lawful vevViews where
  cmp_congr {s s'} h := by
    funext a b
    show decide ((s'.ev a).due < (s'.ev b).due) = decide ((s.ev a).due < (s.ev b).due)
    rw [due_of_rest h a, due_of_rest h b]
  weak s := by
    have hkey := StrictWeak.of_key fun e => (s.ev e).due
    rwa [← show Before vevClient s = fun x y => (s.ev x).due < (s.ev y).due from
      funext fun _ => funext fun _ => propext before_vevClient] at hkey
  update_ok s e u hu := by
    have hl : u < s.lpfd := lt_of_lt_of_le hu (min_le_left ..)
    have hn : u < s.npfd := lt_of_lt_of_le hu (min_le_right ..)
    have hidx : (fun x => (Function.update s.ev e { s.ev e with binheapIdx := u } x).binheapIdx) =
        Function.update (fun x => (s.ev x).binheapIdx) e u := by
      funext x
      by_cases hx : x = e
      · rw [hx, Function.update_self, Function.update_self]
      · rw [Function.update_of_ne hx, Function.update_of_ne hx]
    have hev : (fun x => { Function.update s.ev e { s.ev e with binheapIdx := u } x with
        binheapIdx := 0 }) = fun x => { s.ev x with binheapIdx := 0 } := by
      funext x
      by_cases hx : x = e
      · rw [hx, Function.update_self]
      · rw [Function.update_of_ne hx]
    by_cases h0 : u = vbhNoidx
    · refine ⟨s.setEv e { s.ev e with binheapIdx := u }, ?_, hidx, ?_, ?_⟩
      · show vevBhUpdate s e u = _
        rw [vevBhUpdate, decide_eq_true hl, check_true, ok_bind]
        exact if_neg (not_not.mpr h0)
      · show Base.rest _ = Base.rest _
        rw [Base.rest, Base.rest, Base.setEv]
        dsimp only
        rw [hev]
      · rw [if_pos h0]
        rfl
    · refine ⟨{ s.setEv e { s.ev e with binheapIdx := u } with
        pev := Function.update s.pev u (some e)
        pfd := Function.update s.pfd u
          { s.pfd u with fd := (s.ev e).fd, events := (s.ev e).fdFlags &&& pollMask } },
        ?_, hidx, ?_, ?_⟩
      · show vevBhUpdate s e u = _
        rw [vevBhUpdate, decide_eq_true hl, check_true, ok_bind]
        dsimp only
        rw [if_pos h0, Base.setEv]
        dsimp only
        rw [if_pos hn, Function.update_self]
        rfl
      · show Base.rest _ = Base.rest _
        rw [Base.rest, Base.rest, Base.setEv]
        dsimp only
        rw [hev]
        congr 1
        funext v
        by_cases hv : v = u
        · rw [hv, Function.update_self]
        · rw [Function.update_of_ne hv]
      · rw [if_neg h0]
        funext v
        show (Function.update s.pev u (some e) v, _) = _
        by_cases hv : v = u
        · subst hv
          simp only [Function.update_self]
          rfl
        · simp only [Function.update_of_ne hv]
          rfl

theorem rest_ev {s s' : Base} (h : s'.rest = s.rest) (e : Nat) :
    s'.ev e = { s.ev e with binheapIdx := (s'.ev e).binheapIdx } := by
  have hev : { s'.ev e with binheapIdx := 0 } = { s.ev e with binheapIdx := 0 } :=
    congrArg (fun x => x.ev e) h
  cases hx : s'.ev e with
  | mk magic fd flags events timeout due idx =>
    cases hy : s.ev e with
    | mk magic' fd' flags' events' timeout' due' idx' =>
      rw [hx, hy] at hev
      simp only [Vev.mk.injEq] at hev ⊢
      simp only [hev, and_self]

/-- The heap does not see the difference between two states. -/
structure Agree (bh : Vbh Nat) (s s' : Base) : Prop where
  idx : ∀ e, bh.Mem e → (s'.ev e).binheapIdx = (s.ev e).binheapIdx
  fd : ∀ e, bh.Mem e → (s'.ev e).fd = (s.ev e).fd
  fdFlags : ∀ e, bh.Mem e → (s'.ev e).fdFlags = (s.ev e).fdFlags
  due : ∀ e, bh.Mem e → (s'.ev e).due = (s.ev e).due
  tab : vevViews.tab s' = vevViews.tab s
  room : bh.next ≤ min s'.lpfd s'.npfd

section

variable {bh : Vbh Nat} {s s' : Base}

theorem Agree.sound (ha : Agree bh s s') (h : Sound vevViews bh s) : Sound vevViews bh s' := by
  refine ⟨h.valid, ⟨fun u hu hun => ?_, ha.room⟩, fun u hu hun h0 => ?_⟩
  · exact (ha.idx _ ⟨u, hu, hun, rfl⟩).trans (h.told.idx u hu hun)
  · have hm : bh.Mem (bh.at u) := ⟨u, hu, hun, rfl⟩
    rw [ha.tab, h.mirror u hu hun h0]
    show (_, (s.ev _).fd, (s.ev _).fdFlags &&& _) = (_, (s'.ev _).fd, (s'.ev _).fdFlags &&& _)
    rw [ha.fd _ hm, ha.fdFlags _ hm]

theorem Agree.ordered {k : Nat} {hk : 2 ≤ k} (ha : Agree bh s s')
    (h : HeapOrder.Ordered (pageTree k hk) (Before vevClient s) bh.at bh.next) :
    HeapOrder.Ordered (pageTree k hk) (Before vevClient s') bh.at bh.next := by
  intro v hv hvn
  have hp := parent_lt hk hv
  have hlt := h v hv hvn
  have hpm : bh.Mem (bh.at ((pageTree k hk).parent v)) := ⟨_, hp.1, hp.2.trans hvn, rfl⟩
  rw [before_vevClient] at hlt ⊢
  rw [ha.due _ ⟨v, by omega, hvn, rfl⟩, ha.due _ hpm]
  exact hlt

end

/-- The events that wait for their callback. -/
def Root.waiting (r : Root) : Finset Nat :=
  ((Finset.Ico 1 r.binheap.next).image r.binheap.at).filter fun e => (r.base.ev e).fdEvents ≠ 0

theorem Root.mem_waiting {r : Root} {e : Nat} :
    e ∈ r.waiting ↔ r.binheap.Mem e ∧ (r.base.ev e).fdEvents ≠ 0 := by
  simp only [waiting, Finset.mem_filter, Finset.mem_image, Finset.mem_Ico, Vbh.Mem, and_assoc]

/-- The heap, the tables, the marks of the events and the count agree. -/
structure Good (k : Nat) (hk : 2 ≤ k) (r : Root) : Prop where
  sound : Sound vevViews r.binheap r.base
  page : r.binheap.pageShift = k
  ordered : HeapOrder.Ordered (pageTree k hk) (Before vevClient r.base) r.binheap.at r.binheap.next
  lpfd : r.base.lpfd = r.binheap.next
  npfd : r.base.lpfd < r.base.npfd
  magic : ∀ e, r.binheap.Mem e ↔ (r.base.ev e).magic = true
  count : r.base.nFdEvents = r.waiting.card

section

variable {k : Nat} {hk : 2 ≤ k} {r : Root}

theorem Good.new (k : Nat) (hk : 2 ≤ k) : Good k hk (vevNew k) := by
  have hno : ∀ e, ¬(vevNew k).binheap.Mem e := by
    rintro e ⟨u, hu, hun, -⟩
    have : u < 1 := hun
    omega
  refine ⟨⟨vbhNew_valid hk, ⟨fun u hu hun => ?_, ?_⟩, fun u hu hun => ?_⟩, rfl,
    fun v hv hvn => ?_, rfl, show 1 < 8 by decide,
    fun e => ⟨fun h => absurd h (hno e), fun h => ?_⟩, ?_⟩
  · have : u < 1 := hun
    omega
  · show 1 ≤ min 1 8
    decide
  · have : u < 1 := hun
    omega
  · have : v < 1 := hvn
    omega
  · exact absurd (show false = true from h) (by decide)
  · show 0 = _
    rw [eq_comm, Finset.card_eq_zero, Finset.eq_empty_iff_forall_notMem]
    intro e he
    exact hno e (Root.mem_waiting.mp he).1

/-- The place of a started event. -/
theorem Good.place (h : Good k hk r) {e : Nat} (he : (r.base.ev e).magic = true) :
    1 ≤ (r.base.ev e).binheapIdx ∧ (r.base.ev e).binheapIdx < r.binheap.next ∧
      r.binheap.at (r.base.ev e).binheapIdx = e := by
  obtain ⟨u, hu, hun, hat⟩ := (h.magic e).mpr he
  have hidx : (r.base.ev (r.binheap.at u)).binheapIdx = u := h.sound.told.idx u hu hun
  rw [hat] at hidx
  rw [hidx]
  exact ⟨hu, hun, hat⟩

/-- `pev` has the event that is in the place of the heap. -/
theorem Good.getPev (h : Good k hk r) {u : Nat} (hu : 1 ≤ u) (hun : u < r.binheap.next) :
    r.base.getPev u = .ok (r.binheap.at u) := by
  have hl := h.lpfd
  have hn := h.npfd
  have htab := congrArg Prod.fst (h.sound.mirror u hu hun (by omega))
  have hpev : r.base.pev u = some (r.binheap.at u) := htab
  rw [Base.getPev, if_pos (by omega), hpev]

/-- What happens to events that are not started goes unnoticed. -/
theorem Good.setEv_idle (h : Good k hk r) {e : Nat} (he : (r.base.ev e).magic = false) {x : Vev}
    (hx : x.magic = false) : Good k hk ⟨r.base.setEv e x, r.binheap⟩ := by
  have hne : ∀ q, r.binheap.Mem q → q ≠ e := by
    rintro q hq rfl
    rw [h.magic, he] at hq
    cases hq
  have hev : ∀ q, r.binheap.Mem q → (r.base.setEv e x).ev q = r.base.ev q :=
    fun q hq => Base.setEv_of_ne (hne q hq)
  have hagree : Agree r.binheap r.base (r.base.setEv e x) :=
    ⟨fun q hq => by rw [hev q hq], fun q hq => by rw [hev q hq], fun q hq => by rw [hev q hq],
      fun q hq => by rw [hev q hq], rfl, h.sound.told.room⟩
  refine ⟨hagree.sound h.sound, h.page, hagree.ordered h.ordered, h.lpfd, h.npfd, fun q => ?_, ?_⟩
  · by_cases hq : q = e
    · have hno : ¬r.binheap.Mem q := fun hm => hne q hm hq
      refine ⟨fun hm => absurd hm hno, fun hm => ?_⟩
      rw [hq, Base.setEv_self, hx] at hm
      cases hm
    · rw [h.magic, Base.setEv_of_ne hq]
  · refine h.count.trans (congrArg Finset.card (Finset.ext fun q => ?_))
    rw [Root.mem_waiting, Root.mem_waiting]
    refine and_congr_right fun hq => ?_
    rw [hev q hq]

theorem vevGetPfd_spec {s : Base} (h : s.lpfd < s.npfd) :
    ∃ n, vevGetPfd s = { s with npfd := n } ∧ s.lpfd + 1 < n := by
  by_cases hroom : s.lpfd + 1 < s.npfd
  · exact ⟨s.npfd, by rw [vevGetPfd, if_pos hroom], hroom⟩
  · refine ⟨_, by rw [vevGetPfd, if_neg hroom], ?_⟩
    split_ifs <;> omega

/-- An event that is not started, and does not wait, can be started while there are indices. -/
theorem Good.start (h : Good k hk r) {now e : Nat} (he : (r.base.ev e).magic = false)
    (hfd : (r.base.ev e).fd < 0 ∨ (r.base.ev e).fdFlags ≠ 0) (hev : (r.base.ev e).fdEvents = 0)
    (hsmall : r.base.lpfd + 1 + rowWidth < 2 ^ 32) :
    ∃ r', vevStart r now e = .ok r' ∧ Good k hk r' ∧ r'.waiting = r.waiting ∧
      r'.base.lpfd = r.base.lpfd + 1 ∧ (r'.base.ev e).magic = true ∧
      ∀ q, q ≠ e → (r'.base.ev q).magic = (r.base.ev q).magic ∧
        (r'.base.ev q).fdEvents = (r.base.ev q).fdEvents := by
  have hno : ¬r.binheap.Mem e := by
    rw [h.magic, he]
    simp
  have hne : ∀ q, r.binheap.Mem q → q ≠ e := fun q hq heq => hno (heq ▸ hq)
  obtain ⟨n, hget, hn⟩ := vevGetPfd_spec h.npfd
  let x : Vev := { r.base.ev e with
    magic := true
    due := if (r.base.ev e).timeout ≠ 0 then
      (r.base.ev e).due + ((now + (r.base.ev e).timeout : Nat) : WithTop Nat) else ⊤ }
  let s : Base := { ({ r.base with npfd := n } : Base).setEv e x with lpfd := r.base.lpfd + 1 }
  have hs : ∀ q, q ≠ e → s.ev q = r.base.ev q := fun q hq => Function.update_of_ne hq ..
  have hse : s.ev e = x := Function.update_self ..
  have hagree : Agree r.binheap r.base s := by
    refine ⟨fun q hq => by rw [hs q (hne q hq)], fun q hq => by rw [hs q (hne q hq)],
      fun q hq => by rw [hs q (hne q hq)], fun q hq => by rw [hs q (hne q hq)], rfl, ?_⟩
    show r.binheap.next ≤ min (r.base.lpfd + 1) n
    rw [← h.lpfd]
    omega
  have hroom : r.binheap.next < vevViews.room (vevViews.rest s) := by
    show r.binheap.next < min (r.base.lpfd + 1) n
    rw [← h.lpfd]
    omega
  obtain ⟨bh', s', hrun, hs', ho', hnext', hpage', hrest', hmem', -⟩ :=
    vbhInsert_spec vevClient_lawful hk (hagree.sound h.sound) h.page
      (by rw [← h.lpfd]; exact hsmall) hroom (hagree.ordered h.ordered) hno
  have hev' := rest_ev (show s'.rest = s.rest from hrest')
  have hl' : s'.lpfd = r.base.lpfd + 1 := congrArg Base.Rest.lpfd hrest'
  have hn' : s'.npfd = n := congrArg Base.Rest.npfd hrest'
  have hcount' : s'.nFdEvents = r.base.nFdEvents := congrArg Base.Rest.nFdEvents hrest'
  have hidx : (s'.ev e).binheapIdx ≠ vbhNoidx := by
    obtain ⟨u, hu, hun, hat⟩ := (hmem' e).mpr (Or.inl rfl)
    have htold : (s'.ev (bh'.at u)).binheapIdx = u := hs'.told.idx u hu hun
    rw [hat] at htold
    rw [vbhNoidx]
    omega
  have hmagic : ∀ q, q ≠ e → (s'.ev q).magic = (r.base.ev q).magic ∧
      (s'.ev q).fdEvents = (r.base.ev q).fdEvents := by
    intro q hq
    rw [hev' q, hs q hq]
    exact ⟨rfl, rfl⟩
  have hwait : Root.waiting ⟨s', bh'⟩ = r.waiting := by
    ext q
    rw [Root.mem_waiting, Root.mem_waiting, hmem']
    by_cases hq : q = e
    · have hzero : (s'.ev e).fdEvents = 0 := by
        rw [hev' e, hse]
        exact hev
      simp only [hq, hzero, hno, ne_eq, not_true_eq_false, and_false, false_and]
    · rw [(hmagic q hq).2]
      simp only [hq, false_or]
  refine ⟨⟨s', bh'⟩, ?_, ⟨hs', hpage', ho', ?_, ?_, fun q => ?_, ?_⟩, hwait, hl', ?_, hmagic⟩
  · have hfd' : decide ((r.base.ev e).fd < 0 ∨ (r.base.ev e).fdFlags ≠ 0) = true :=
      decide_eq_true hfd
    rw [vevStart, he, Bool.not_false, check_true, ok_bind, hfd', check_true, ok_bind, hget]
    refine bind_eq_ok.mpr ⟨(bh', s'), hrun, ?_⟩
    rw [decide_eq_true hidx, check_true, ok_bind]
    rfl
  · rw [hl', hnext', h.lpfd]
  · rw [hl', hn']
    exact hn
  · rw [hmem']
    by_cases hq : q = e
    · rw [hq, hev' e, hse]
      simp [x]
    · rw [(hmagic q hq).1, ← h.magic]
      simp only [hq, false_or]
  · rw [hwait, ← h.count]
    exact hcount'
  · rw [hev' e, hse]

theorem unwait_spec {s : Base} {e : Nat} (h : (s.ev e).fdEvents ≠ 0 → 0 < s.nFdEvents) :
    ∃ s', unwait s e = .ok s' ∧
      s' = { s.setEv e { s.ev e with fdEvents := 0 } with
        nFdEvents := s.nFdEvents - if (s.ev e).fdEvents ≠ 0 then 1 else 0 } := by
  by_cases hw : (s.ev e).fdEvents ≠ 0
  · refine ⟨_, ?_, rfl⟩
    have hpos : s.nFdEvents > 0 := h hw
    rw [unwait, if_pos hw, decide_eq_true hpos, check_true, ok_bind, if_pos hw]
    rfl
  · refine ⟨s, by rw [unwait, if_neg hw], ?_⟩
    have hself : { s.ev e with fdEvents := 0 } = s.ev e := by
      rw [← not_not.mp hw]
    rw [hself, if_neg hw, Base.setEv, Function.update_eq_self]
    rfl

/-- A started event can be stopped, and then no longer waits. -/
theorem Good.stop (h : Good k hk r) {e : Nat} (he : (r.base.ev e).magic = true) :
    ∃ r', vevStop r e = .ok r' ∧ Good k hk r' ∧ r'.waiting = r.waiting.erase e ∧
      r'.base.lpfd + 1 = r.base.lpfd ∧ (r'.base.ev e).magic = false ∧
      (r'.base.ev e).fdEvents = 0 ∧
      ∀ q, q ≠ e → (r'.base.ev q).magic = (r.base.ev q).magic ∧
        (r'.base.ev q).fdEvents = (r.base.ev q).fdEvents := by
  obtain ⟨hu, hun, hat⟩ := h.place he
  let s : Base := r.base.setEv e { r.base.ev e with fd := -1 }
  have hs : ∀ q, q ≠ e → s.ev q = r.base.ev q := fun q hq => Function.update_of_ne hq ..
  have hse : s.ev e = { r.base.ev e with fd := -1 } := Function.update_self ..
  have hidx : ∀ q, (s.ev q).binheapIdx = (r.base.ev q).binheapIdx := by
    intro q
    by_cases hq : q = e
    · rw [hq, hse]
    · rw [hs q hq]
  have hdue : ∀ q, (s.ev q).due = (r.base.ev q).due := by
    intro q
    by_cases hq : q = e
    · rw [hq, hse]
    · rw [hs q hq]
  have htold : Told vevViews r.binheap s :=
    ⟨fun u hu hun => (hidx _).trans (h.sound.told.idx u hu hun), h.sound.told.room⟩
  have hmirror : Mirror vevViews r.binheap s (r.base.ev e).binheapIdx := by
    intro u hu' hun' hne
    have hqe : r.binheap.at u ≠ e :=
      fun hq => hne (h.sound.told.inj hu' hun' hu hun (by rw [hq, hat]))
    refine (h.sound.mirror u hu' hun' (by omega)).trans ?_
    show (_, (r.base.ev _).fd, (r.base.ev _).fdFlags &&& _) =
      (_, (s.ev _).fd, (s.ev _).fdFlags &&& _)
    rw [hs _ hqe]
  have hord : HeapOrder.Ordered (pageTree k hk) (Before vevClient s) r.binheap.at
      r.binheap.next := by
    intro v hv hvn
    have hlt := h.ordered v hv hvn
    rw [before_vevClient] at hlt ⊢
    rw [hdue, hdue]
    exact hlt
  obtain ⟨bh', s', hrun, hs', ho', hnext', hpage', hrest', hmem', hgone, -⟩ :=
    vbhDelete_spec vevClient_lawful hk h.sound.valid htold hmirror h.page hu hun
      (hord.around (vevClient_lawful.weak s) hun)
  rw [hat] at hmem' hgone
  have hgone' : (s'.ev e).binheapIdx = vbhNoidx := hgone
  have hev' := rest_ev (show s'.rest = s.rest from hrest')
  have hl' : s'.lpfd = r.base.lpfd := congrArg Base.Rest.lpfd hrest'
  have hn' : s'.npfd = r.base.npfd := congrArg Base.Rest.npfd hrest'
  have hcount' : s'.nFdEvents = r.base.nFdEvents := congrArg Base.Rest.nFdEvents hrest'
  have hevents : (s'.ev e).fdEvents = (r.base.ev e).fdEvents := by
    rw [hev' e, hse]
  have hmem : r.binheap.Mem e := (h.magic e).mpr he
  let s1 : Base := { s' with lpfd := s'.lpfd - 1 }
  obtain ⟨s2, hun2, hs2⟩ := @unwait_spec s1 e (by
    intro hw
    show 0 < s'.nFdEvents
    rw [hcount', h.count, Finset.card_pos]
    exact ⟨e, Root.mem_waiting.mpr ⟨hmem, by rw [← hevents]; exact hw⟩⟩)
  let s3 : Base := s2.setEv e { s2.ev e with magic := false }
  have hs2e : s2.ev e = { s'.ev e with fdEvents := 0 } := by
    rw [hs2]
    exact Function.update_self ..
  have hs3 : ∀ q, q ≠ e → s3.ev q = s'.ev q := by
    intro q hq
    rw [Base.setEv_of_ne hq, hs2]
    exact Function.update_of_ne hq ..
  have hs3e : s3.ev e = { s'.ev e with fdEvents := 0, magic := false } := by
    rw [Base.setEv_self, hs2e]
  have hne : ∀ q, bh'.Mem q → q ≠ e := fun q hq => ((hmem' q).mp hq).2
  have hlpfd : s3.lpfd = r.base.lpfd - 1 := by
    show s2.lpfd = _
    rw [hs2, ← hl']
    rfl
  have hnpfd : s3.npfd = r.base.npfd := by
    show s2.npfd = _
    rw [hs2]
    exact hn'
  have hpos : 1 ≤ bh'.next := hs'.valid.pos
  have hl0 := h.lpfd
  have hl1 := h.npfd
  have hagree : Agree bh' s' s3 := by
    refine ⟨fun q hq => by rw [hs3 q (hne q hq)], fun q hq => by rw [hs3 q (hne q hq)],
      fun q hq => by rw [hs3 q (hne q hq)], fun q hq => by rw [hs3 q (hne q hq)], ?_, ?_⟩
    · show vevViews.tab s2 = _
      rw [hs2]
      rfl
    · rw [hlpfd, hnpfd]
      omega
  have hother : ∀ q, q ≠ e → (s3.ev q).magic = (r.base.ev q).magic ∧
      (s3.ev q).fdEvents = (r.base.ev q).fdEvents := by
    intro q hq
    rw [hs3 q hq, hev' q, hs q hq]
    exact ⟨rfl, rfl⟩
  have hwait : Root.waiting ⟨s3, bh'⟩ = r.waiting.erase e := by
    ext q
    rw [Root.mem_waiting, Finset.mem_erase, Root.mem_waiting, hmem']
    by_cases hq : q = e
    · simp [hq]
    · rw [(hother q hq).2]
      tauto
  refine ⟨⟨s3, bh'⟩, ?_, ⟨hagree.sound hs', hpage', hagree.ordered ho', ?_, ?_, fun q => ?_, ?_⟩,
    hwait, ?_, ?_, ?_, hother⟩
  · have hidx0 : (r.base.ev e).binheapIdx ≠ vbhNoidx := by
      rw [vbhNoidx]
      omega
    rw [vevStop, he, check_true, ok_bind, h.getPev hu hun, ok_bind, hat, decide_eq_true rfl,
      check_true, ok_bind, decide_eq_true hidx0, check_true, ok_bind]
    refine bind_eq_ok.mpr ⟨(bh', s'), ?_, ?_⟩
    · rw [← hidx e] at hrun
      exact hrun
    · rw [decide_eq_true hgone', check_true, ok_bind]
      refine bind_eq_ok.mpr ⟨s2, hun2, rfl⟩
  · show s3.lpfd = bh'.next
    omega
  · show s3.lpfd < s3.npfd
    omega
  · by_cases hq : q = e
    · rw [hq]
      show bh'.Mem e ↔ (s3.ev e).magic = true
      rw [hs3e, hmem']
      simp
    · show bh'.Mem q ↔ (s3.ev q).magic = true
      rw [(hother q hq).1, hmem', h.magic]
      simp [hq]
  · rw [hwait]
    have hcount2 : s3.nFdEvents =
        r.base.nFdEvents - if (r.base.ev e).fdEvents ≠ 0 then 1 else 0 := by
      show s2.nFdEvents = _
      rw [hs2, ← hcount', ← hevents]
    show s3.nFdEvents = _
    rw [hcount2, h.count]
    by_cases hw : (r.base.ev e).fdEvents ≠ 0
    · rw [if_pos hw, Finset.card_erase_of_mem (Root.mem_waiting.mpr ⟨hmem, hw⟩)]
    · rw [if_neg hw, Finset.erase_eq_of_notMem fun hm => hw (Root.mem_waiting.mp hm).2]
      rfl
  · show s3.lpfd + 1 = _
    omega
  · show (s3.ev e).magic = false
    rw [hs3e]
  · show (s3.ev e).fdEvents = 0
    rw [hs3e]

end

end Event
end VTest
