import VTest.Http2.Window

/-!
# VTest.Http2.Credit

Where the credit of a connection is.

An account is the connection (`none`) or a stream (`some id`). For each account, the window of the
end that sends data falls short of the window of the end that receives it by the data on the wire
and by the grants that are on the wire or in a queue. Stream windows are counted relative to the
initial window of their end, so that a change of the initial window moves no credit.

* `Inv.send`, `Inv.receive`, `Inv.take`: the three ways a frame moves.
* `winStep_inv`: one step of the machine.
* `Inv.settled`: what the invariant says when nothing is under way.
-/

namespace VTest
namespace Http2

/-! ## Accounts -/

/-- The stream whose `WINDOW_UPDATE` frames an account gets. -/
def chan : Option Nat → Nat
  | none => 0
  | some id => id

/-- What a `DATA` frame takes from an account. -/
def spent (i : Option Nat) (f : Frame) : Int :=
  if f.type = typeData ∧ (i = none ∨ i = some f.stid) then f.size else 0

def winupSize (f : Frame) : Int :=
  match vbe32dec f.data with
  | .ok n => n
  | .error _ => 0

/-- What a `WINDOW_UPDATE` frame adds to an account. -/
def granted (i : Option Nat) (f : Frame) : Int :=
  if f.type = typeWindowUpdate ∧ f.stid = chan i then winupSize f else 0

/-- The initial window after a `SETTINGS` frame. -/
def announced (i : Int) (f : Frame) : Int :=
  if f.type = typeSettings then
    match lastSetting 4 (settingsOf f.data) with
    | some v => v
    | none => i
  else i

def total (g : Frame → Int) (l : List Frame) : Int := (l.map g).sum

@[simp] theorem total_nil (g : Frame → Int) : total g [] = 0 := rfl

@[simp] theorem total_cons (g : Frame → Int) (f : Frame) (l : List Frame) :
    total g (f :: l) = g f + total g l := by
  simp [total]

@[simp] theorem total_append (g : Frame → Int) (l l' : List Frame) :
    total g (l ++ l') = total g l + total g l' := by
  simp [total]

def WinEnd.queue (e : WinEnd) (id : Nat) : List Frame :=
  match e.streams id with
  | some s => s.fq
  | none => []

/-- What an end may still send. -/
def WinEnd.peer (e : WinEnd) : Option Nat → Int
  | none => e.peerSize
  | some id =>
    match e.streams id with
    | some s => s.winPeer - e.peerInit
    | none => 0

/-- What an end is ready to receive. -/
def WinEnd.self (e : WinEnd) : Option Nat → Int
  | none => e.selfSize
  | some id =>
    match e.streams id with
    | some s => s.winSelf - e.selfInit
    | none => 0

/-! ## The invariant -/

/-- A frame on the wire. -/
structure Good (f : Frame) : Prop where
  onWire : f.OnWire
  data : f.type = typeData → f.flags &&& flagPadded = 0 ∧ f.stid ≠ 0
  winup : f.type = typeWindowUpdate → ∃ n, n < 2 ^ 32 ∧ f.data = vbe32enc n
  settings : f.type = typeSettings → f.stid = 0 ∧
    ∀ v, lastSetting 4 (settingsOf f.data) = some v → v < 2 ^ 31

/-- A frame in the queue of the stream `id`. -/
structure Queued (id : Nat) (f : Frame) : Prop where
  stid : f.stid = id
  winup : f.type = typeWindowUpdate → (f.md.toNat : Int) = winupSize f
  settings : f.type = typeSettings → id = 0

/-- `fl x` are the frames the end `x` has written and the other has not read. -/
structure Inv (c : Conn) (fl : Side → List Frame) : Prop where
  wire : ∀ x, c.wire x = (fl x).flatMap Frame.bytes
  good : ∀ x, ∀ f ∈ fl x, Good f
  queued : ∀ x id, ∀ f ∈ (c.ends x).queue id, Queued id f
  credit : ∀ x i, (c.ends x).peer i = (c.ends x.other).self i - total (spent i) (fl x) -
    total (granted i) ((c.ends x).queue (chan i) ++ fl x.other)
  init : ∀ x, ((c.ends x).queue 0 ++ fl x.other).foldl announced (c.ends x).peerInit =
    (c.ends x.other).selfInit

theorem Side.eq_or_other (x z : Side) : x = z ∨ x = z.other := by
  cases x <;> cases z <;> decide

theorem inv_start : Inv {} (fun _ => []) where
  wire x := rfl
  good x f hf := by cases hf
  queued x id f hf := by cases hf
  credit x i := by cases i <;> rfl
  init x := rfl

/-- The end `z` writes the frame `f`. -/
theorem Inv.send {c : Conn} {fl : Side → List Frame} (h : Inv c fl) (z : Side) {e : WinEnd}
    {f : Frame} (hf : Good f) (hq : ∀ id, e.queue id = (c.ends z).queue id)
    (hp : ∀ i, e.peer i = (c.ends z).peer i - spent i f)
    (hs : ∀ i, e.self i = (c.ends z).self i + granted i f)
    (hpi : e.peerInit = (c.ends z).peerInit)
    (hsi : e.selfInit = announced (c.ends z).selfInit f) :
    Inv ((c.setEnd z e).setWire z (c.wire z ++ f.bytes))
      (Function.update fl z (fl z ++ [f])) := by
  constructor
  · intro x
    rcases Side.eq_or_other x z with rfl | rfl
    · simp [Conn.setWire, Conn.setEnd, h.wire]
    · simp [Conn.setWire, Conn.setEnd, h.wire]
  · intro x g hg
    rcases Side.eq_or_other x z with rfl | rfl
    · simp only [Function.update_self, List.mem_append, List.mem_singleton] at hg
      rcases hg with hg | rfl
      · exact h.good x g hg
      · exact hf
    · simp only [Function.update_of_ne (Side.other_ne z)] at hg
      exact h.good _ g hg
  · intro x id g hg
    rcases Side.eq_or_other x z with rfl | rfl
    · simp only [Conn.setWire, Conn.setEnd, Function.update_self, hq] at hg
      exact h.queued x id g hg
    · simp only [Conn.setWire, Conn.setEnd, Function.update_of_ne (Side.other_ne z)] at hg
      exact h.queued _ id g hg
  · intro x i
    have hx := h.credit x i
    rcases Side.eq_or_other x z with rfl | rfl
    · simp only [Conn.setWire, Conn.setEnd, Function.update_self, ne_eq, Side.other_ne,
        not_false_eq_true, Function.update_of_ne, total_append, total_cons, total_nil, hq, hp,
        hx]
      omega
    · simp only [Conn.setWire, Conn.setEnd, Function.update_self, ne_eq, Side.other_ne,
        not_false_eq_true, Function.update_of_ne, total_append, total_cons, total_nil, hs,
        Side.other_other] at hx ⊢
      omega
  · intro x
    have hx := h.init x
    rcases Side.eq_or_other x z with rfl | rfl
    · simpa only [Conn.setWire, Conn.setEnd, Function.update_self, ne_eq, Side.other_ne,
        not_false_eq_true, Function.update_of_ne, hq, hpi] using hx
    · simp only [Side.other_other] at hx
      simp only [Conn.setWire, Conn.setEnd, Function.update_self, ne_eq, Side.other_ne,
        not_false_eq_true, Function.update_of_ne, Side.other_other, ← List.append_assoc, hsi]
      rw [List.foldl_append, hx]
      rfl

theorem granted_of_ne {i : Option Nat} {f : Frame} (h : chan i ≠ f.stid) : granted i f = 0 := by
  rw [granted, if_neg (fun hc => h hc.2.symm)]

theorem announced_of_ne {i : Int} {f : Frame} (h : f.type = typeSettings → f.stid = 0)
    (h0 : 0 ≠ f.stid) : announced i f = i := by
  rw [announced, if_neg (fun hc => h0 (h hc).symm)]

/-- The end `z` reads the frame `f` and queues it, as `f'`. -/
theorem Inv.receive {c : Conn} {fl : Side → List Frame} (h : Inv c fl) (z : Side) {e : WinEnd}
    {f f' : Frame} {rest : List Frame} (hfl : fl z.other = f :: rest)
    (hq : ∀ id, e.queue id = (c.ends z).queue id ++ if id = f.stid then [f'] else [])
    (hf' : Queued f.stid f') (hg : ∀ i, granted i f' = granted i f)
    (ha : ∀ i, announced i f' = announced i f)
    (hp : ∀ i, e.peer i = (c.ends z).peer i)
    (hs : ∀ i, e.self i = (c.ends z).self i - spent i f)
    (hpi : e.peerInit = (c.ends z).peerInit) (hsi : e.selfInit = (c.ends z).selfInit) :
    Inv ((c.setEnd z e).setWire z.other (rest.flatMap Frame.bytes))
      (Function.update fl z.other rest) := by
  have hgood := h.good z.other f (by rw [hfl]; exact List.mem_cons_self)
  constructor
  · intro x
    rcases Side.eq_or_other x z with rfl | rfl
    · simp [Conn.setWire, Conn.setEnd, h.wire]
    · simp [Conn.setWire, Conn.setEnd]
  · intro x g hgm
    rcases Side.eq_or_other x z with rfl | rfl
    · simp only [ne_eq, Side.ne_other, not_false_eq_true, Function.update_of_ne] at hgm
      exact h.good x g hgm
    · simp only [Function.update_self] at hgm
      exact h.good _ g (by rw [hfl]; exact List.mem_cons_of_mem _ hgm)
  · intro x id g hgm
    rcases Side.eq_or_other x z with rfl | rfl
    · simp only [Conn.setWire, Conn.setEnd, Function.update_self, hq, List.mem_append] at hgm
      rcases hgm with hgm | hgm
      · exact h.queued x id g hgm
      · split at hgm
        · rename_i hid
          rw [List.mem_singleton] at hgm
          subst hgm hid
          exact hf'
        · cases hgm
    · simp only [Conn.setWire, Conn.setEnd, Function.update_of_ne (Side.other_ne z)] at hgm
      exact h.queued _ id g hgm
  · intro x i
    have hx := h.credit x i
    rcases Side.eq_or_other x z with rfl | rfl
    · simp only [Conn.setWire, Conn.setEnd, Function.update_self, ne_eq, Side.other_ne,
        Side.ne_other, not_false_eq_true, Function.update_of_ne, total_append, hq, hp, hx, hfl,
        total_cons]
      by_cases hi : chan i = f.stid
      · rw [if_pos hi, total_cons, total_nil, hg]
        omega
      · rw [if_neg hi, granted_of_ne hi, total_nil]
        omega
    · simp only [Side.other_other, hfl, total_cons, total_append] at hx
      simp only [Conn.setWire, Conn.setEnd, Function.update_self, ne_eq, Side.other_ne,
        Side.ne_other, not_false_eq_true, Function.update_of_ne, total_append, hs,
        Side.other_other]
      omega
  · intro x
    have hx := h.init x
    rcases Side.eq_or_other x z with rfl | rfl
    · simp only [Conn.setWire, Conn.setEnd, Function.update_self, ne_eq, Side.other_ne,
        not_false_eq_true, Function.update_of_ne, hq, hpi]
      rw [← hx, hfl, List.foldl_append, List.foldl_append, List.foldl_append, List.foldl_cons]
      by_cases h0 : 0 = f.stid
      · rw [if_pos h0, List.foldl_cons, ha, List.foldl_nil]
      · rw [if_neg h0, List.foldl_nil, announced_of_ne (fun ht => (hgood.settings ht).1) h0]
    · simp only [Side.other_other] at hx
      simpa only [Conn.setWire, Conn.setEnd, Function.update_self, ne_eq, Side.other_ne,
        Side.ne_other, not_false_eq_true, Function.update_of_ne, Side.other_other, hsi] using hx

/-- A command of the end `z` takes the frame `f` off the queue of the stream `id`. -/
theorem Inv.take {c : Conn} {fl : Side → List Frame} (h : Inv c fl) (z : Side) (id : Nat)
    (f : Frame) {e : WinEnd}
    (hq : ∀ j, (c.ends z).queue j = (if j = id then [f] else []) ++ e.queue j)
    (hp : ∀ i, e.peer i = (c.ends z).peer i + granted i f)
    (hs : ∀ i, e.self i = (c.ends z).self i)
    (hpi : e.peerInit = announced (c.ends z).peerInit f)
    (hsi : e.selfInit = (c.ends z).selfInit) : Inv (c.setEnd z e) fl := by
  have hqd : Queued id f := h.queued z id f (by rw [hq, if_pos rfl]; exact List.mem_cons_self)
  constructor
  · intro x
    simp [Conn.setEnd, h.wire]
  · exact h.good
  · intro x j g hg
    rcases Side.eq_or_other x z with rfl | rfl
    · simp only [Conn.setEnd, Function.update_self] at hg
      exact h.queued x j g (by rw [hq]; exact List.mem_append_right _ hg)
    · simp only [Conn.setEnd, Function.update_of_ne (Side.other_ne z)] at hg
      exact h.queued _ j g hg
  · intro x i
    have hx := h.credit x i
    rcases Side.eq_or_other x z with rfl | rfl
    · rw [hq, total_append, total_append] at hx
      simp only [Conn.setEnd, Function.update_self, ne_eq, Side.other_ne, not_false_eq_true,
        Function.update_of_ne, total_append, hp, hx]
      by_cases hi : chan i = id
      · rw [if_pos hi, total_cons, total_nil]
        omega
      · rw [if_neg hi, granted_of_ne (by rw [hqd.stid]; exact hi), total_nil]
        omega
    · simp only [Conn.setEnd, Function.update_self, ne_eq, Side.other_ne, not_false_eq_true,
        Function.update_of_ne, Side.other_other, hs] at hx ⊢
      exact hx
  · intro x
    have hx := h.init x
    rcases Side.eq_or_other x z with rfl | rfl
    · simp only [Conn.setEnd, Function.update_self, ne_eq, Side.other_ne, not_false_eq_true,
        Function.update_of_ne, hpi]
      rw [← hx, hq, List.append_assoc, List.foldl_append (l := if 0 = id then [f] else [])]
      by_cases h0 : 0 = id
      · rw [if_pos h0]
        rfl
      · rw [if_neg h0, List.foldl_nil,
          announced_of_ne (fun ht => hqd.stid.trans (hqd.settings ht)) (by rw [hqd.stid]; exact h0)]
    · simp only [Side.other_other] at hx
      simpa only [Conn.setEnd, Function.update_self, ne_eq, Side.other_ne, not_false_eq_true,
        Function.update_of_ne, Side.other_other, hsi] using hx

/-- The end `z` changes without a frame that moves. -/
theorem Inv.same {c : Conn} {fl : Side → List Frame} (h : Inv c fl) (z : Side) {e : WinEnd}
    (hq : ∀ id, e.queue id = (c.ends z).queue id) (hp : ∀ i, e.peer i = (c.ends z).peer i)
    (hs : ∀ i, e.self i = (c.ends z).self i) (hpi : e.peerInit = (c.ends z).peerInit)
    (hsi : e.selfInit = (c.ends z).selfInit) : Inv (c.setEnd z e) fl := by
  have hends : ∀ x, ((c.setEnd z e).ends x).queue = (c.ends x).queue ∧
      ((c.setEnd z e).ends x).peer = (c.ends x).peer ∧
      ((c.setEnd z e).ends x).self = (c.ends x).self ∧
      ((c.setEnd z e).ends x).peerInit = (c.ends x).peerInit ∧
      ((c.setEnd z e).ends x).selfInit = (c.ends x).selfInit := by
    intro x
    rcases Side.eq_or_other x z with rfl | rfl
    · simp only [Conn.setEnd, Function.update_self]
      exact ⟨funext hq, funext hp, funext hs, hpi, hsi⟩
    · simp [Conn.setEnd]
  refine ⟨h.wire, h.good, ?_, ?_, ?_⟩
  · intro x id f hf
    rw [(hends x).1] at hf
    exact h.queued x id f hf
  · intro x i
    rw [(hends x).1, (hends x).2.1, (hends x.other).2.2.1]
    exact h.credit x i
  · intro x
    rw [(hends x).1, (hends x).2.2.2.1, (hends x.other).2.2.2.2]
    exact h.init x

/-! ## The ends -/

theorem queue_setStream (e : WinEnd) (id : Nat) (s : WinStream) (j : Nat) :
    (e.setStream id s).queue j = if j = id then s.fq else e.queue j := by
  unfold WinEnd.queue WinEnd.setStream
  by_cases hj : j = id
  · simp [hj]
  · simp [hj]

theorem peer_setStream (e : WinEnd) (id : Nat) (s : WinStream) (i : Option Nat) :
    (e.setStream id s).peer i = if i = some id then s.winPeer - e.peerInit else e.peer i := by
  cases i with
  | none => simp [WinEnd.peer, WinEnd.setStream]
  | some j =>
    by_cases hj : j = id
    · simp [WinEnd.peer, WinEnd.setStream, hj]
    · simp [WinEnd.peer, WinEnd.setStream, hj]

theorem self_setStream (e : WinEnd) (id : Nat) (s : WinStream) (i : Option Nat) :
    (e.setStream id s).self i = if i = some id then s.winSelf - e.selfInit else e.self i := by
  cases i with
  | none => simp [WinEnd.self, WinEnd.setStream]
  | some j =>
    by_cases hj : j = id
    · simp [WinEnd.self, WinEnd.setStream, hj]
    · simp [WinEnd.self, WinEnd.setStream, hj]

theorem stream_eq_ok {e : WinEnd} {id : Nat} {s : WinStream} (h : e.stream id = .ok s) :
    e.streams id = some s := by
  unfold WinEnd.stream at h
  split at h
  · rename_i hs
    cases h
    exact hs
  · cases h

section
variable {e : WinEnd} {id : Nat} {s : WinStream} (h : e.streams id = some s)
include h

theorem queue_of_stream : e.queue id = s.fq := by simp [WinEnd.queue, h]

theorem peer_of_stream : e.peer (some id) = s.winPeer - e.peerInit := by simp [WinEnd.peer, h]

theorem self_of_stream : e.self (some id) = s.winSelf - e.selfInit := by simp [WinEnd.self, h]

end

/-- A new stream has no credit beyond the initial window, and an empty queue. -/
theorem inv_create {c : Conn} {fl : Side → List Frame} (h : Inv c fl) (x : Side) (id : Nat) :
    Inv (c.setEnd x (streamNew (c.ends x) id)) fl := by
  unfold streamNew
  split
  · exact h.same x (fun _ => rfl) (fun _ => rfl) (fun _ => rfl) rfl rfl
  · rename_i hn
    refine h.same x ?_ ?_ ?_ rfl rfl
    · intro j
      rw [queue_setStream]
      split
      · rename_i hj
        subst hj
        simp [WinEnd.queue, hn]
      · rfl
    · intro i
      rw [peer_setStream]
      split
      · rename_i hi
        subst hi
        simp [WinEnd.peer, hn]
      · rfl
    · intro i
      rw [self_setStream]
      split
      · rename_i hi
        subst hi
        simp [WinEnd.self, hn]
      · rfl

/-! ## Sending -/

theorem spent_of_ne {i : Option Nat} {f : Frame} (h : f.type ≠ typeData) : spent i f = 0 := by
  rw [spent, if_neg (fun hc => h hc.1)]

theorem granted_of_type {i : Option Nat} {f : Frame} (h : f.type ≠ typeWindowUpdate) :
    granted i f = 0 := by
  rw [granted, if_neg (fun hc => h hc.1)]

theorem announced_of_type {i : Int} {f : Frame} (h : f.type ≠ typeSettings) :
    announced i f = i := by
  rw [announced, if_neg h]

theorem writeFrame_inv {c c' : Conn} {x : Side} {id : Nat} {f : Frame}
    (h : writeFrame c x id f = .ok c') : ∃ s, (c.ends x).streams id = some s ∧
      c' = (c.setEnd x (writeFrameWin (c.ends x) id s f)).setWire x (c.wire x ++ f.bytes) := by
  obtain ⟨s, hs, h⟩ := bind_eq_ok.mp h
  cases h
  exact ⟨s, stream_eq_ok hs, rfl⟩

/-- A `DATA` frame without padding takes its size from the stream and from the connection. -/
theorem inv_data {c c' : Conn} {fl : Side → List Frame} (h : Inv c fl) {x : Side} {id : Nat}
    {f : Frame} (hf : Good f) (hid : f.stid = id) (ht : f.type = typeData)
    (hw : writeFrame c x id f = .ok c') : ∃ fl', Inv c' fl' := by
  subst hid
  obtain ⟨s, hs, rfl⟩ := writeFrame_inv hw
  have hwu : f.type ≠ typeWindowUpdate := by rw [ht]; decide
  have hset : f.type ≠ typeSettings := by rw [ht]; decide
  refine ⟨_, h.send x hf ?_ ?_ ?_ ?_ ?_⟩
  · intro j
    rw [writeFrameWin, if_pos ht, queue_setStream]
    split
    · rename_i hj
      subst hj
      exact (queue_of_stream hs).symm
    · rfl
  · intro i
    rw [writeFrameWin, if_pos ht, peer_setStream, spent]
    cases i with
    | none => simp [WinEnd.peer, ht]
    | some j =>
      by_cases hj : j = f.stid
      · subst hj
        simp only [if_true, ht, reduceCtorEq, or_true, and_self, peer_of_stream hs]
        omega
      · simp [hj, WinEnd.peer]
  · intro i
    rw [granted_of_type hwu, Int.add_zero, writeFrameWin, if_pos ht, self_setStream]
    split
    · rename_i hi
      subst hi
      exact (self_of_stream hs).symm
    · cases i <;> rfl
  · rw [writeFrameWin, if_pos ht]
    rfl
  · rw [announced_of_type hset, writeFrameWin, if_pos ht]
    rfl

/-- Every other frame is written as it is. -/
theorem inv_write {c c' : Conn} {fl : Side → List Frame} {x : Side} {e : WinEnd} {id : Nat}
    {f : Frame} (h : Inv c fl) (hf : Good f) (ht : f.type ≠ typeData)
    (hw : writeFrame (c.setEnd x e) x id f = .ok c')
    (hq : ∀ id, e.queue id = (c.ends x).queue id) (hp : ∀ i, e.peer i = (c.ends x).peer i)
    (hs : ∀ i, e.self i = (c.ends x).self i + granted i f)
    (hpi : e.peerInit = (c.ends x).peerInit)
    (hsi : e.selfInit = announced (c.ends x).selfInit f) : ∃ fl', Inv c' fl' := by
  obtain ⟨s, _, rfl⟩ := writeFrame_inv hw
  have hend : writeFrameWin ((c.setEnd x e).ends x) id s f = e := by
    rw [writeFrameWin, if_neg ht]
    simp [Conn.setEnd]
  have hset : ((c.setEnd x e).setEnd x e) = c.setEnd x e := by simp [Conn.setEnd]
  rw [hend, hset]
  refine ⟨_, h.send x hf hq ?_ hs hpi hsi⟩
  intro i
  rw [hp, spent_of_ne ht]
  omega

theorem vbe32dec_enc_nil {n : Nat} (h : n < 2 ^ 32) : vbe32dec (vbe32enc n) = .ok n := by
  have := vbe32dec_enc n [] h
  rwa [List.append_nil] at this

theorem good_winup {id size : Nat} (hid : id < 2 ^ 31) (hsz : size < 2 ^ 32) :
    Good (winupFrame id size) where
  onWire := ⟨rfl, (by decide : 4 < 2 ^ 24), Nat.lt_trans hid (by decide), rfl⟩
  data ht := absurd ht (by simp [winupFrame, typeWindowUpdate, typeData])
  winup _ := ⟨size, hsz, rfl⟩
  settings ht := absurd ht (by simp [winupFrame, typeWindowUpdate, typeSettings])

theorem granted_winup {id size : Nat} (hsz : size < 2 ^ 32) (i : Option Nat) :
    granted i (winupFrame id size) = if id = chan i then (size : Int) else 0 := by
  simp [granted, winupFrame, winupSize, vbe32dec_enc_nil hsz]

theorem inv_txwinup {c c' : Conn} {fl : Side → List Frame} (h : Inv c fl) {x : Side}
    {id size : Nat} (hid : id < 2 ^ 31) (hsz : size < 2 ^ 32)
    (hw : txwinup c x id size = .ok c') : ∃ fl', Inv c' fl' := by
  obtain ⟨s, hs, hw⟩ := bind_eq_ok.mp hw
  have hs := stream_eq_ok hs
  refine inv_write h (good_winup hid hsz) (by simp [winupFrame, typeWindowUpdate, typeData]) hw
    ?_ ?_ ?_ rfl ?_
  · intro j
    rw [WinEnd.grant, queue_setStream]
    split
    · rename_i hj
      subst hj
      exact (queue_of_stream hs).symm
    · rfl
  · intro i
    rw [WinEnd.grant, peer_setStream]
    split
    · rename_i hi
      subst hi
      exact (peer_of_stream hs).symm
    · cases i <;> rfl
  · intro i
    rw [WinEnd.grant, self_setStream, granted_winup hsz]
    cases i with
    | none =>
      by_cases h0 : id = 0
      · simp [WinEnd.self, chan, h0]
      · simp [WinEnd.self, chan, h0]
    | some j =>
      by_cases hj : j = id
      · subst hj
        simp only [if_true, chan, self_of_stream hs]
        omega
      · have hj' : ¬ id = j := fun e => hj e.symm
        simp [hj, hj', chan, WinEnd.self]
  · rw [announced_of_type (by simp [winupFrame, typeWindowUpdate, typeSettings])]
    rfl

/-! ## Settings -/

/-- What an end is after its options: the last `-winsize` is the initial window, and no account has
changed. -/
theorem foldl_apply (l : List TxSetting) (hl : ∀ o ∈ l, ∀ v, o ≠ .raw 4 v) (e : WinEnd) :
    (∀ id, (l.foldl TxSetting.apply e).queue id = e.queue id) ∧
      (∀ i, (l.foldl TxSetting.apply e).peer i = e.peer i) ∧
      (∀ i, (l.foldl TxSetting.apply e).self i = e.self i) ∧
      (l.foldl TxSetting.apply e).peerInit = e.peerInit ∧
      (l.foldl TxSetting.apply e).selfInit =
        match lastSetting 4 (l.map TxSetting.pair) with
        | some v => (v : Int)
        | none => e.selfInit := by
  induction l using List.reverseRecOn with
  | nil => exact ⟨fun _ => rfl, fun _ => rfl, fun _ => rfl, rfl, rfl⟩
  | append_singleton l o ih =>
    obtain ⟨hq, hp, hs, hpi, hsi⟩ := ih (fun o ho => hl o (List.mem_append_left _ ho))
    rw [List.foldl_append, List.map_append, List.foldl_cons, List.foldl_nil]
    cases o with
    | raw tag val =>
      have htag : tag ≠ 4 := by
        rintro rfl
        exact hl (.raw 4 val) (by simp) val rfl
      refine ⟨hq, hp, hs, hpi, ?_⟩
      simpa [TxSetting.apply, TxSetting.pair, lastSetting_append, htag] using hsi
    | winsize val =>
      generalize hg : l.foldl TxSetting.apply e = g at *
      refine ⟨?_, ?_, ?_, hpi, ?_⟩
      · intro id
        rw [← hq id]
        simp only [TxSetting.apply, WinEnd.setSelfInit, WinEnd.queue]
        cases g.streams id <;> rfl
      · intro i
        rw [← hp i]
        cases i with
        | none => rfl
        | some j =>
          simp only [TxSetting.apply, WinEnd.setSelfInit, WinEnd.peer]
          cases g.streams j <;> rfl
      · intro i
        rw [← hs i]
        cases i with
        | none => rfl
        | some j =>
          simp only [TxSetting.apply, WinEnd.setSelfInit, WinEnd.self]
          cases g.streams j with
          | none => rfl
          | some s => simp only [Option.map_some]; omega
      · simp [TxSetting.apply, WinEnd.setSelfInit, TxSetting.pair, lastSetting_append]

/-- The options of a `SETTINGS` frame that the peer reads as they are meant: a window below 2^31,
and no raw tag for the initial window. -/
def TxSetting.Ok : TxSetting → Prop
  | .winsize val => val < 2 ^ 31
  | .raw tag val => tag < 2 ^ 16 ∧ tag ≠ 4 ∧ val < 2 ^ 32

theorem TxSetting.Ok.bounds {o : TxSetting} (h : o.Ok) : o.pair.1 < 2 ^ 16 ∧ o.pair.2 < 2 ^ 32 := by
  cases o with
  | winsize val =>
    simp only [TxSetting.Ok] at h
    exact ⟨(by decide : 4 < 2 ^ 16), by simp only [TxSetting.pair]; omega⟩
  | raw tag val => exact ⟨h.1, h.2.2⟩

theorem lastSetting_lt {l : List TxSetting} (h : ∀ o ∈ l, o.Ok) {v : Nat}
    (hv : lastSetting 4 (l.map TxSetting.pair) = some v) : v < 2 ^ 31 := by
  obtain ⟨o, ho, hpair⟩ := List.mem_map.mp (mem_of_lastSetting hv)
  have hok := h o ho
  cases o with
  | winsize val =>
    cases hpair
    exact hok
  | raw tag val =>
    cases hpair
    exact absurd rfl hok.2.1

theorem inv_txsettings {c c' : Conn} {fl : Side → List Frame} (h : Inv c fl) {x : Side}
    {l : List TxSetting} {ack : Bool} (hl : ∀ o ∈ l, o.Ok)
    (hw : txsettings c x l ack = .ok c') : ∃ fl', Inv c' fl' := by
  unfold txsettings at hw
  split at hw
  · cases hw
  · rename_i hlen
    have hof := settingsOf_data (fun o ho => (hl o ho).bounds)
    have hraw : ∀ o ∈ l, ∀ v, o ≠ .raw 4 v := by
      rintro o ho v rfl
      exact (hl _ ho).2.1 rfl
    obtain ⟨hq, hp, hs, hpi, hsi⟩ := foldl_apply l hraw (c.ends x)
    have hgood : Good (settingsFrame l ack) := by
      refine ⟨⟨rfl, ?_, (by decide : 0 < 2 ^ 32), rfl⟩, ?_, ?_, ?_⟩
      · simp only [settingsFrame]
        omega
      · intro ht
        exact absurd ht (by simp [settingsFrame, typeSettings, typeData])
      · intro ht
        exact absurd ht (by simp [settingsFrame, typeSettings, typeWindowUpdate])
      · intro _
        refine ⟨rfl, fun v hv => lastSetting_lt hl ?_⟩
        rw [← hof]
        exact hv
    refine inv_write h hgood (by simp [settingsFrame, typeSettings, typeData]) hw hq hp ?_ hpi ?_
    · intro i
      rw [hs, granted_of_type (by simp [settingsFrame, typeSettings, typeWindowUpdate])]
      omega
    · rw [hsi, announced, if_pos (show (settingsFrame l ack).type = typeSettings from rfl)]
      simp only [settingsFrame, hof]

/-! ## Receiving -/

theorem setStream_keeps {e : WinEnd} {id : Nat} {s : WinStream} (hs : e.streams id = some s)
    (s' : WinStream) (hp : s'.winPeer = s.winPeer) (i : Option Nat) :
    (e.setStream id s').peer i = e.peer i := by
  rw [peer_setStream]
  split
  · rename_i hi
    subst hi
    rw [peer_of_stream hs, hp]
  · rfl

theorem setStream_keeps_self {e : WinEnd} {id : Nat} {s : WinStream}
    (hs : e.streams id = some s) (s' : WinStream) (hw : s'.winSelf = s.winSelf) (i : Option Nat) :
    (e.setStream id s').self i = e.self i := by
  rw [self_setStream]
  split
  · rename_i hi
    subst hi
    rw [self_of_stream hs, hw]
  · rfl

/-- `parse_data` of a frame without padding. -/
theorem parseData_inv {e e' : WinEnd} {s s' : WinStream} {f : Frame} (hf : Good f)
    (ht : f.type = typeData) (h : parseData e s f = .ok (e', s')) :
    e' = { e with selfSize := e.selfSize - f.size } ∧ s'.winSelf = s.winSelf - f.size ∧
      s'.winPeer = s.winPeer ∧ s'.fq = s.fq := by
  obtain ⟨hpad, hid⟩ := hf.data ht
  have hspan : dataSpan e.fatal f = .ok (f.size, f.data) := by
    simp [dataSpan, hpad]
  unfold parseData at h
  rw [hspan, ok_bind] at h
  simp only [ne_eq, hid, not_false_eq_true, if_true] at h
  split at h
  · obtain ⟨_, h⟩ := check_bind_eq_ok.mp h
    cases h
    exact ⟨rfl, rfl, rfl, rfl⟩
  · cases h
    exact ⟨rfl, rfl, rfl, rfl⟩

theorem parseWinup_inv {fatal : Bool} {f f' : Frame} (hf : Good f) (ht : f.type = typeWindowUpdate)
    (h : parseWinup fatal f = .ok f') :
    ∃ md, f' = { f with md := md } ∧ (md.toNat : Int) = winupSize f := by
  obtain ⟨n, hn, hd⟩ := hf.winup ht
  have hmem : f.mem = vbe32enc n ++ [0] := by
    have h4 : f.size ≠ 0 := by rw [← hf.onWire.size, hd]; simp
    rw [Frame.mem, if_neg h4, hd]
  unfold parseWinup at h
  obtain ⟨_, h⟩ := fatalIf_bind_eq_ok.mp h
  obtain ⟨b, _, h⟩ := bind_eq_ok.mp h
  obtain ⟨_, h⟩ := fatalIf_bind_eq_ok.mp h
  rw [hmem, vbe32dec_enc n [0] hn, ok_bind] at h
  cases h
  refine ⟨_, rfl, ?_⟩
  rw [winupSize, hd, vbe32dec_enc_nil hn, UInt32.toNat_ofNat', Nat.mod_eq_of_lt hn]

/-- What parsing a frame does: `DATA` takes its size from the own windows, and the frame keeps its
type, stream and payload. -/
theorem parseFrame_inv {e e' : WinEnd} {s s' : WinStream} {f f' : Frame} (hf : Good f)
    (h : parseFrame e s f = .ok (e', s', f')) :
    (∃ md, f' = { f with md := md } ∧
      (f.type = typeWindowUpdate → (md.toNat : Int) = winupSize f)) ∧
    e' = { e with selfSize := e.selfSize - spent none f } ∧
    s'.winSelf = s.winSelf - spent (some f.stid) f ∧ s'.winPeer = s.winPeer ∧ s'.fq = s.fq := by
  unfold parseFrame at h
  split at h
  · rename_i ht
    obtain ⟨⟨e1, s1⟩, h1, h⟩ := bind_eq_ok.mp h
    cases h
    obtain ⟨rfl, hw, hp, hq⟩ := parseData_inv hf ht h1
    refine ⟨⟨f.md, rfl, fun hwu => ?_⟩, ?_, ?_, hp, hq⟩
    · rw [ht] at hwu
      exact absurd hwu (by decide)
    · simp [spent, ht]
    · rw [hw]
      simp [spent, ht]
  · rename_i ht
    have hsp : ∀ i, spent i f = 0 := fun i => spent_of_ne ht
    split at h
    · rename_i hh
      cases h
      refine ⟨⟨f.md, rfl, fun hwu => ?_⟩, by simp [hsp], by simp [hsp], rfl, rfl⟩
      rw [hwu] at hh
      exact absurd hh (by decide)
    · split at h
      · rename_i hset
        obtain ⟨_, h⟩ := fatalIf_bind_eq_ok.mp h
        obtain ⟨_, h⟩ := fatalIf_bind_eq_ok.mp h
        cases h
        refine ⟨⟨f.md, rfl, fun hwu => ?_⟩, by simp [hsp], by simp [hsp], rfl, rfl⟩
        rw [hset] at hwu
        exact absurd hwu (by decide)
      · split at h
        · rename_i hwu
          obtain ⟨f1, h1, h⟩ := bind_eq_ok.mp h
          cases h
          obtain ⟨md, rfl, hmd⟩ := parseWinup_inv hf hwu h1
          exact ⟨⟨md, rfl, fun _ => hmd⟩, by simp [hsp], by simp [hsp], rfl, rfl⟩
        · cases h

/-- One `read` delivers the header of the next frame, and one its payload. -/
def WholeReads (wire : Bytes) (evs : List RxEvent) : Prop :=
  ∃ hevs pevs f, evs = hevs ++ pevs ∧ Segments 9 hevs ∧ reads hevs ≤ 1 ∧
    readFrameHeader (wire.take 9) = .ok f ∧ Segments f.size pevs ∧ reads pevs ≤ 1

/-- With whole reads, the frame taken off the wire is the next one that was written. -/
theorem rxFrame_next {f : Frame} {rest : Bytes} {evs : List RxEvent} (hf : f.OnWire)
    (hr : WholeReads (f.bytes ++ rest) evs) (stack heap : Nat → UInt8) :
    rxFrame stack heap evs (f.bytes ++ rest) = .ok (some f, rest, []) := by
  obtain ⟨hevs, pevs, f0, rfl, hh, hh1, hf0, hp, hp1⟩ := hr
  rw [Frame.bytes, List.append_assoc, List.take_left' (length_writeFrameHeader f),
    readFrameHeader_write hf.fits hf.stid] at hf0
  cases hf0
  have := rxFrame_whole hf hh hp hh1 hp1 stack heap [] rest
  rwa [List.append_nil] at this

theorem inv_receive {c c' : Conn} {fl : Side → List Frame} (h : Inv c fl) {x : Side}
    {stack heap : Nat → UInt8} {evs : List RxEvent} (hr : WholeReads (c.wire x.other) evs)
    (hw : receiveFrame c x stack heap evs = .ok c') : ∃ fl', Inv c' fl' := by
  have hwire := h.wire x.other
  cases hfl : fl x.other with
  | nil =>
    rw [hfl] at hwire
    rw [hwire] at hr
    obtain ⟨_, _, _, _, _, _, hf0, _⟩ := hr
    cases hf0
  | cons f rest =>
    have hf : Good f := h.good x.other f (by rw [hfl]; exact List.mem_cons_self)
    rw [hfl, List.flatMap_cons] at hwire
    rw [hwire] at hr
    unfold receiveFrame at hw
    rw [hwire, rxFrame_next hf.onWire hr, ok_bind] at hw
    simp only at hw
    obtain ⟨s, hs, hw⟩ := bind_eq_ok.mp hw
    have hs := stream_eq_ok hs
    obtain ⟨⟨e1, s1, f1⟩, hparse, hw⟩ := bind_eq_ok.mp hw
    cases hw
    obtain ⟨⟨md, rfl, hmd⟩, rfl, hws, hwp, hq⟩ := parseFrame_inv hf hparse
    have hqd : Queued f.stid { f with md := md } := ⟨rfl, hmd, fun ht => (hf.settings ht).1⟩
    refine ⟨_, h.receive x hfl ?_ hqd (fun i => rfl) (fun i => rfl) ?_ ?_ rfl rfl⟩
    · intro j
      simp only [queue_setStream]
      by_cases hj : j = f.stid
      · simp only [hj, if_true, hq]
        rw [queue_of_stream hs]
      · simp only [hj, if_false, List.append_nil]
        rfl
    · intro i
      rw [setStream_keeps (by exact hs) _ (by exact hwp)]
      cases i <;> rfl
    · intro i
      simp only [self_setStream]
      cases i with
      | none => simp [WinEnd.self]
      | some j =>
        by_cases hj : j = f.stid
        · simp only [hj, if_true, hws, self_of_stream hs]
          omega
        · have hsp : spent (some j) f = 0 := by simp [spent, hj]
          simp only [Option.some.injEq, hj, if_false, hsp, Int.sub_zero]
          rfl

/-! ## Taking frames -/

/-- A `WINDOW_UPDATE` frame is taken by `rxwinup`, and a `SETTINGS` frame by `rxsettings`. -/
def TakenRight (e : WinEnd) (id : Nat) (call : RxCall) : Prop :=
  ∀ f fq, e.queue id = f :: fq →
    (f.type = typeWindowUpdate → call = .rxwinup) ∧ (f.type = typeSettings → call = .rxsettings)

theorem rxstuff_inv {c c' : Conn} {x : Side} {id : Nat} {call : RxCall}
    (h : rxstuff c x id call = .ok c') : ∃ s f fq e, (c.ends x).streams id = some s ∧
      s.fq = f :: fq ∧ call.accepts f.type = true ∧
      useFrame (c.ends x) id { s with fq := fq } f call = .ok e ∧ c' = c.setEnd x e := by
  unfold rxstuff at h
  obtain ⟨s, hs, h⟩ := bind_eq_ok.mp h
  split at h
  · cases h
  · rename_i f fq hfq
    obtain ⟨hacc, h⟩ := fatalIf_bind_eq_ok.mp h
    obtain ⟨e, he, h⟩ := bind_eq_ok.mp h
    cases h
    exact ⟨s, f, fq, e, stream_eq_ok hs, hfq, by simpa using hacc, he, rfl⟩

theorem queue_pop {e : WinEnd} {id : Nat} {s : WinStream} {f : Frame} {fq : List Frame}
    (hs : e.streams id = some s) (hfq : s.fq = f :: fq) (j : Nat) :
    e.queue j = (if j = id then [f] else []) ++ if j = id then fq else e.queue j := by
  by_cases hj : j = id
  · subst hj
    simp [queue_of_stream hs, hfq]
  · simp [hj]

/-- A frame that is neither a grant nor an announcement. -/
theorem inv_drop {c : Conn} {fl : Side → List Frame} (h : Inv c fl) {x : Side} {id : Nat}
    {s : WinStream} {f : Frame} {fq : List Frame} (hs : (c.ends x).streams id = some s)
    (hfq : s.fq = f :: fq) (hwu : f.type ≠ typeWindowUpdate) (hset : f.type ≠ typeSettings) :
    Inv (c.setEnd x ((c.ends x).setStream id { s with fq := fq })) fl := by
  refine h.take x id f ?_ ?_ ?_ ?_ rfl
  · intro j
    rw [queue_setStream]
    exact queue_pop hs hfq j
  · intro i
    rw [setStream_keeps hs { s with fq := fq } rfl, granted_of_type hwu, Int.add_zero]
  · intro i
    exact setStream_keeps_self hs { s with fq := fq } rfl i
  · rw [announced_of_type hset]
    rfl

theorem inv_rxwinup {c : Conn} {fl : Side → List Frame} (h : Inv c fl) {x : Side} {id : Nat}
    {s : WinStream} {f : Frame} {fq : List Frame} (hs : (c.ends x).streams id = some s)
    (hfq : s.fq = f :: fq) (ht : f.type = typeWindowUpdate) :
    Inv (c.setEnd x ((c.ends x).earn id { s with fq := fq } f.md.toNat)) fl := by
  have hqd := h.queued x id f (by rw [queue_of_stream hs, hfq]; exact List.mem_cons_self)
  have hmd := hqd.winup ht
  refine h.take x id f ?_ ?_ ?_ ?_ rfl
  · intro j
    rw [WinEnd.earn, queue_setStream]
    exact queue_pop hs hfq j
  · intro i
    rw [WinEnd.earn, peer_setStream, granted, hqd.stid, ← hmd]
    cases i with
    | none =>
      by_cases h0 : id = 0
      · simp [WinEnd.peer, ht, chan, h0]
      · simp [WinEnd.peer, chan, h0]
    | some j =>
      by_cases hj : j = id
      · subst hj
        simp only [if_true, ht, chan, and_self, peer_of_stream hs]
        omega
      · have hj' : ¬ id = j := fun e => hj e.symm
        simp [hj, hj', chan, WinEnd.peer]
  · intro i
    rw [WinEnd.earn, self_setStream]
    split
    · rename_i hi
      subst hi
      exact (self_of_stream hs).symm
    · cases i <;> rfl
  · rw [announced_of_type (by rw [ht]; decide)]
    rfl

theorem inv_rxsettings {c : Conn} {fl : Side → List Frame} (h : Inv c fl) {x : Side} {id : Nat}
    {s : WinStream} {f : Frame} {fq : List Frame} {e : WinEnd}
    (hs : (c.ends x).streams id = some s) (hfq : s.fq = f :: fq) (ht : f.type = typeSettings)
    (hr : rxsettings ((c.ends x).setStream id { s with fq := fq }) f = .ok e) :
    Inv (c.setEnd x e) fl := by
  have hwu : f.type ≠ typeWindowUpdate := by rw [ht]; decide
  unfold rxsettings at hr
  split at hr
  · rename_i hnone
    cases hr
    refine h.take x id f ?_ ?_ ?_ ?_ rfl
    · intro j
      rw [queue_setStream]
      exact queue_pop hs hfq j
    · intro i
      rw [setStream_keeps hs { s with fq := fq } rfl, granted_of_type hwu, Int.add_zero]
    · intro i
      exact setStream_keeps_self hs { s with fq := fq } rfl i
    · rw [announced, if_pos ht, hnone]
      rfl
  · rename_i val hval
    split at hr
    · cases hr
      have hmap : ∀ j, ((c.ends x).setStream id { s with fq := fq }).queue j =
          (((c.ends x).setStream id { s with fq := fq }).setPeerInit val).queue j := by
        intro j
        simp only [WinEnd.setPeerInit, WinEnd.queue]
        cases ((c.ends x).setStream id { s with fq := fq }).streams j <;> rfl
      refine h.take x id f ?_ ?_ ?_ ?_ rfl
      · intro j
        rw [← hmap, queue_setStream]
        exact queue_pop hs hfq j
      · intro i
        rw [granted_of_type hwu, Int.add_zero, ← setStream_keeps hs { s with fq := fq } rfl]
        cases i with
        | none => rfl
        | some j =>
          simp only [WinEnd.setPeerInit, WinEnd.peer]
          cases ((c.ends x).setStream id { s with fq := fq }).streams j with
          | none => rfl
          | some s1 => simp only [Option.map_some]; omega
      · intro i
        rw [← setStream_keeps_self hs { s with fq := fq } rfl]
        cases i with
        | none => rfl
        | some j =>
          simp only [WinEnd.setPeerInit, WinEnd.self]
          cases ((c.ends x).setStream id { s with fq := fq }).streams j <;> rfl
      · rw [announced, if_pos ht, hval]
        rfl
    · cases hr

theorem inv_rx {c c' : Conn} {fl : Side → List Frame} (h : Inv c fl) {x : Side} {id : Nat}
    {call : RxCall} (ht : TakenRight (c.ends x) id call) (hw : rxstuff c x id call = .ok c') :
    Inv c' fl := by
  obtain ⟨s, f, fq, e, hs, hfq, hacc, he, rfl⟩ := rxstuff_inv hw
  obtain ⟨hwu, hset⟩ := ht f fq (by rw [queue_of_stream hs, hfq])
  cases call with
  | rxwinup =>
    cases he
    exact inv_rxwinup h hs hfq (by simpa [RxCall.accepts] using hacc)
  | rxsettings => exact inv_rxsettings h hs hfq (by simpa [RxCall.accepts] using hacc) he
  | rxdata | rxhdrs | rxcont | rxmsg | rxframe =>
    cases he
    exact inv_drop h hs hfq (fun hc => by cases hwu hc) (fun hc => by cases hset hc)

/-! ## Runs -/

/-- What a step must meet in the state it starts from. A `DATA` frame has no padding, the length of
a frame fits its field, a frame is read whole, and the command that takes a frame off its queue is
the one for its type. -/
def WinOk (c : Conn) : WinAct → Prop
  | .create _ _ => True
  | .txdata _ id body pad _ => pad = none ∧ 0 < id ∧ id < 2 ^ 31 ∧ body.length < 2 ^ 24
  | .txhdrs _ f => f.OnWire ∧ (f.type = typeHeaders ∨ f.type = typeContinuation)
  | .txwinup _ id size => id < 2 ^ 31 ∧ size < 2 ^ 32
  | .txsettings _ l _ => ∀ o ∈ l, o.Ok
  | .receive x _ _ evs => WholeReads (c.wire x.other) evs
  | .rx x id call => TakenRight (c.ends x) id call

theorem inv_txdata {c c' : Conn} {fl : Side → List Frame} (h : Inv c fl) {x : Side} {id : Nat}
    {body : Bytes} {strEnd : Bool} (h0 : 0 < id) (hid : id < 2 ^ 31) (hb : body.length < 2 ^ 24)
    (hw : (dataFrame id body none strEnd >>= writeFrame c x id) = .ok c') :
    ∃ fl', Inv c' fl' := by
  obtain ⟨f, hf, hw⟩ := bind_eq_ok.mp hw
  cases hf
  refine inv_data h ⟨⟨rfl, hb, ?_, rfl⟩, fun _ => ⟨?_, ?_⟩, fun hc => ?_, fun hc => ?_⟩ ?_ ?_ hw
  · simp only
    omega
  · show flagIf strEnd flagEndStream &&& flagPadded = 0
    cases strEnd <;> decide
  · simp only
    omega
  · exact absurd hc (by decide : typeData ≠ typeWindowUpdate)
  · exact absurd hc (by decide : typeData ≠ typeSettings)
  · rfl
  · rfl

theorem inv_txhdrs {c c' : Conn} {fl : Side → List Frame} (h : Inv c fl) {x : Side} {f : Frame}
    (hf : f.OnWire) (ht : f.type = typeHeaders ∨ f.type = typeContinuation)
    (hw : writeFrame c x f.stid f = .ok c') : ∃ fl', Inv c' fl' := by
  have hd : f.type ≠ typeData := by rcases ht with ht | ht <;> rw [ht] <;> decide
  have hwu : f.type ≠ typeWindowUpdate := by rcases ht with ht | ht <;> rw [ht] <;> decide
  have hset : f.type ≠ typeSettings := by rcases ht with ht | ht <;> rw [ht] <;> decide
  have hgood : Good f := ⟨hf, fun hc => absurd hc hd, fun hc => absurd hc hwu,
    fun hc => absurd hc hset⟩
  have hself : c.setEnd x (c.ends x) = c := by simp [Conn.setEnd]
  rw [← hself] at hw
  refine inv_write h hgood hd hw (fun _ => rfl) (fun _ => rfl) (fun i => ?_) rfl ?_
  · rw [granted_of_type hwu, Int.add_zero]
  · rw [announced_of_type hset]

theorem winStep_inv (c : Conn) (act : WinAct) (c' : Conn) (h : ∃ fl, Inv c fl) (hok : WinOk c act)
    (hw : winStep c act = .ok c') : ∃ fl, Inv c' fl := by
  obtain ⟨fl, h⟩ := h
  cases act with
  | create x id =>
    cases hw
    exact ⟨fl, inv_create h x id⟩
  | txdata x id body pad strEnd =>
    obtain ⟨rfl, h0, hid, hb⟩ := hok
    exact inv_txdata h h0 hid hb hw
  | txhdrs x f => exact inv_txhdrs h hok.1 hok.2 hw
  | txwinup x id size => exact inv_txwinup h hok.1 hok.2 hw
  | txsettings x l ack => exact inv_txsettings h hok hw
  | receive x stack heap evs => exact inv_receive h hok hw
  | rx x id call => exact ⟨fl, inv_rx h hok hw⟩

/-- Each frame sent has been received and taken off its queue. -/
def Quiescent (c : Conn) : Prop := ∀ x, c.wire x = [] ∧ ∀ id, (c.ends x).queue id = []

theorem Inv.eq_nil {c : Conn} {fl : Side → List Frame} (h : Inv c fl) {x : Side}
    (hw : c.wire x = []) : fl x = [] := by
  have hwire := h.wire x
  rw [hw] at hwire
  cases hfl : fl x with
  | nil => rfl
  | cons f rest =>
    have hlen := congrArg List.length hwire
    simp only [hfl, List.flatMap_cons, List.length_nil, List.length_append, Frame.bytes,
      length_writeFrameHeader] at hlen
    omega

theorem Inv.settled {c : Conn} {fl : Side → List Frame} (h : Inv c fl) (hq : Quiescent c)
    (x : Side) : (∀ i, (c.ends x).peer i = (c.ends x.other).self i) ∧
      (c.ends x).peerInit = (c.ends x.other).selfInit := by
  have h1 := h.eq_nil (hq x).1
  have h2 := h.eq_nil (hq x.other).1
  constructor
  · intro i
    rw [h.credit x i, (hq x).2, h1, h2]
    simp
  · have := h.init x
    rwa [(hq x).2, h2] at this

/-- One end sends a byte of data, and the other takes it. -/
def oneByte (pad : Option Bytes) (size : Nat) : List WinAct :=
  [.create .a 1, .create .b 1, .txdata .a 1 [120] pad true,
    .receive .b (fun _ => 0) (fun _ => 0) [.read 9, .read size], .rx .b 1 .rxdata]

end Http2
end VTest
