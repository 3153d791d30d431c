import VTest.Http2.HdrBlock
import VTest.Http2.Window

/-!
# VTest.Http2.Schedule

Header blocks of one connection under any schedule. The stream threads of the sending end share its
`encctx`; each encodes its headers one by one and then writes its frame. The receiving end decodes
with its `decctx`, which `txsettings -hdrtbl` resizes when it is sent, while the sending end resizes
its `encctx` when the frame comes in. Every `HPK_EncHdr`, `HPK_ResizeTbl` and `write_frame` call and
every reception of a frame is one step.

A frame ends its block (no `-nohdrend`). A step that would wait does not exist.

* `SchedInv`: the table the sender will have once it knows the sizes under way is the one the
  receiver gets to by decoding what is on the wire and then the block a thread holds.
* `schedStep_inv`: one step of the machine.
* `SchedInv.receive`: the next block on the wire is decoded to the headers it was encoded from.
-/

namespace VTest
namespace Http2

open Hpack

/-- A thread inside `cmd_tx11obj`: its buffer, the iterator over it, and the headers so far. -/
structure Block where
  buf : TxBuf
  it : HpkIter
  sent : List Sent

/-- A frame on the wire, and the headers it was encoded from. -/
structure Packet where
  frame : Frame
  sent : List Sent

/-- A block that was received: the headers it was encoded from, and those it was decoded to. -/
structure Arrival where
  sent : List Sent
  got : List HpkHdr

structure Sched where
  enc : HpkCtx := hpkNewCtx 4096
  dec : HpkCtx := hpkNewCtx 4096
  fatal : Bool := true
  streams : List PrioStream := []
  /-- The threads of the sending end, by the id of their stream. -/
  blocks : Nat → Option Block := fun _ => none
  wire : List Packet := []
  /-- The sizes a `txsettings` of the receiving end has put into its frame. -/
  sizes : List UInt32 := []
  settings : List Frame := []
  hdrs : Nat → List HpkHdr := fun _ => noHeaders maxHdr
  log : List Arrival := []

inductive SchedAct where
  | begin (t : Nat) (buf : TxBuf)
  | encHdr (t : Nat) (h : HpkHdr)
  | write (t : Nat) (prio : Option Prio) (pad : Option Bytes) (strEnd : Bool)
  | receive
  | resize (val : UInt32)
  | writeSettings
  | rxSettings

def Sched.setBlock (s : Sched) (t : Nat) (b : Option Block) : Sched :=
  { s with blocks := Function.update s.blocks t b }

/-- The values for the tag `SETTINGS_HEADER_TABLE_SIZE`. -/
def hdrtblOf (f : Frame) : List UInt32 :=
  (settingsOf f.data).filterMap fun p => if p.1 = 1 then some (UInt32.ofNat p.2) else none

def hdrtblFrame (sizes : List UInt32) : Frame :=
  settingsFrame (sizes.map fun v => .raw 1 v.toNat) false

def beginBlock (s : Sched) (t : Nat) (buf : TxBuf) : Res Sched :=
  match s.blocks t with
  | some _ => .error .fuel
  | none => .ok (s.setBlock t (some ⟨buf, ⟨[], buf.1⟩, []⟩))

/-- `assert(HPK_EncHdr(iter, &hdr) != hpk_err)`. -/
def encHdr (s : Sched) (t : Nat) (h : HpkHdr) : Res Sched :=
  match s.blocks t with
  | none => .error .fuel
  | some b => do
    let (ret, it, enc) ← hpkEncHdr s.enc b.it h
    check (ret ≠ .err)
    let x : Sent := ⟨h, h.denotes s.enc, it.done.drop b.it.done.length⟩
    return { s.setBlock t (some { b with it := it, sent := b.sent ++ [x] }) with enc := enc }

def writeBlock (s : Sched) (t : Nat) (prio : Option Prio) (pad : Option Bytes) (strEnd : Bool) :
    Res Sched :=
  match s.blocks t with
  | none => .error .fuel
  | some b => do
    let f ← tx11Frame b.buf t true strEnd b.it.done (.headers prio pad)
    return { s.setBlock t none with wire := s.wire ++ [⟨f, b.sent⟩] }

/-- `receive_frame` of a `HEADERS` frame. -/
def receiveBlock (s : Sched) : Res Sched :=
  match s.wire with
  | [] => .error .fuel
  | p :: wire => do
    let id := p.frame.stid
    let h ← cleanHeaders (s.hdrs id)
    let k := s.streams.findIdx (·.id = id)
    let (streams, _, vsb) ← parseHdr s.fatal s.streams k p.frame []
    let (h, dec) ← decodeHdr s.fatal s.dec h vsb
    return { s with
      dec := dec
      streams := streams
      wire := wire
      hdrs := Function.update s.hdrs id h
      log := s.log ++ [⟨p.sent, headersOf h⟩] }

/-- `-hdrtbl`: the payload is put together in 512 bytes of the stack. -/
def resizeDec (s : Sched) (val : UInt32) : Res Sched :=
  if 512 < 6 * (s.sizes.length + 1) then .error .ub
  else do
    let dec ← hpkResizeTbl s.dec val
    return { s with dec := dec, sizes := s.sizes ++ [val] }

/-- `parse_settings`. -/
def rxSettings (s : Sched) : Res Sched :=
  match s.settings with
  | [] => .error .fuel
  | f :: settings => do
    let enc ← (hdrtblOf f).foldlM hpkResizeTbl s.enc
    return { s with enc := enc, settings := settings }

def schedStep (s : Sched) : SchedAct → Res Sched
  | .begin t buf => beginBlock s t buf
  | .encHdr t h => encHdr s t h
  | .write t prio pad strEnd => writeBlock s t prio pad strEnd
  | .receive => receiveBlock s
  | .resize val => resizeDec s val
  | .writeSettings => .ok { s with settings := s.settings ++ [hdrtblFrame s.sizes], sizes := [] }
  | .rxSettings => rxSettings s

/-! ## The condition on the steps -/

/-- The table sizes the receiving end has set and the sending end does not know yet. -/
def Sched.pending (s : Sched) : List UInt32 := s.settings.flatMap hdrtblOf ++ s.sizes

/-- A block with a header that reads or changes the dynamic table. -/
def Touching (l : List Sent) : Prop := ∃ x ∈ l, x.Touches

/-- The thread `t` has encoded such a header and not written it. -/
def Sched.Holds (s : Sched) (t : Nat) : Prop := ∃ b, s.blocks t = some b ∧ Touching b.sent

/-- What a step must meet in the state it starts from. A header that reads or changes the dynamic
table is encoded only while no other thread holds such a header and no change of the table size is
under way, and the table size is changed only while no such header is under way. -/
def SchedOk (s : Sched) : SchedAct → Prop
  | .encHdr t h => h.Sendable s.enc ∧ (h.t = .idx → h.i ≠ 0) ∧
      (∀ e, h.denotes s.enc = .ok e → e.len < 2 ^ 32) ∧
      (h.t = .inc ∨ 61 < h.i.toNat → s.pending = [] ∧ ∀ u, s.Holds u → u = t)
  | .write t _ _ _ => ∀ b, s.blocks t = some b → LegibleAll [] b.sent ∧ b.sent.length < maxHdr
  | .resize val => val.toNat < 2 ^ 32 - 61 ∧ (∀ u, ¬ s.Holds u) ∧
      ∀ p ∈ s.wire, ¬ Touching p.sent
  | _ => True

/-! ## The invariant -/

def Packet.Effect (ctx : HpkCtx) (p : Packet) (ctx' : HpkCtx) : Prop :=
  Path Sent.Effect ctx p.sent ctx'

/-- The receiver finds the block in the frame, and can read it. -/
structure Packet.Ok (p : Packet) : Prop where
  block : ∀ fatal streams k, ∃ streams' f',
    parseHdr fatal streams k p.frame [] = .ok (streams', f', bytesOf p.sent)
  legible : LegibleAll [] p.sent
  length : p.sent.length < maxHdr

/-- The headers came out as they were encoded. -/
def Arrival.Faithful (a : Arrival) : Prop := List.Forall₂ Sent.Decoded a.sent a.got

/-- `base` is the table of the receiver once it has decoded what is on the wire, and `next` that of
the sender once it knows the sizes that are under way. -/
structure SchedInv (s : Sched) (base next : HpkCtx) : Prop where
  enc : Sane s.enc
  dec : Sane s.dec
  sizes : ∀ v ∈ s.pending, v.toNat < 2 ^ 32 - 61
  known : s.pending.foldlM hpkResizeTbl s.enc = .ok next
  wire : Path Packet.Effect s.dec s.wire base
  packets : ∀ p ∈ s.wire, p.Ok
  bytes : ∀ t b, s.blocks t = some b → b.it.done = bytesOf b.sent
  still : ∀ t b, s.blocks t = some b → ¬ Touching b.sent → ∀ x ∈ b.sent, x.Still
  held : ∀ t b, s.blocks t = some b → Touching b.sent →
    Path Sent.Effect base b.sent next ∧ ∀ u, s.Holds u → u = t
  free : (∀ t, ¬ s.Holds t) → base = next
  quiet : s.pending ≠ [] → (∀ t, ¬ s.Holds t) ∧ ∀ p ∈ s.wire, ¬ Touching p.sent
  hdrs : ∀ id, Slots (s.hdrs id)
  log : ∀ a ∈ s.log, a.Faithful

theorem slots_noHeaders : Slots (noHeaders maxHdr) := ⟨[], rfl, Nat.zero_le _, by simp⟩

theorem schedInv_start (fatal : Bool) (streams : List PrioStream) :
    SchedInv { fatal := fatal, streams := streams } (hpkNewCtx 4096) (hpkNewCtx 4096) where
  enc := sane_new
  dec := sane_new
  sizes v hv := by cases hv
  known := rfl
  wire := .nil
  packets p hp := by cases hp
  bytes t b hb := by cases hb
  still t b hb := by cases hb
  held t b hb := by cases hb
  free _ := rfl
  quiet h := absurd rfl h
  hdrs _ := slots_noHeaders
  log a ha := by cases ha

/-! ## Tables under way -/

theorem sane_foldlM {l : List UInt32} (hl : ∀ v ∈ l, v.toNat < 2 ^ 32 - 61) :
    ∀ {c c' : HpkCtx}, Sane c → l.foldlM hpkResizeTbl c = .ok c' → Sane c' := by
  induction l with
  | nil =>
    intro c c' hc h
    cases h
    exact hc
  | cons v l ih =>
    intro c c' hc h
    rw [List.foldlM_cons] at h
    obtain ⟨c1, h1, h⟩ := bind_eq_ok.mp h
    exact ih (fun w hw => hl w (List.mem_cons_of_mem _ hw))
      (hc.resize (hl v List.mem_cons_self) h1) h

theorem Packet.Effect.sane {c c' : HpkCtx} {p : Packet} (hc : Sane c) (h : p.Effect c c') :
    Sane c' :=
  Path.keeps h (fun _ _ _ hs hx => hx.sane hs) hc

theorem SchedInv.sane_base {s : Sched} {base next : HpkCtx} (h : SchedInv s base next) :
    Sane base :=
  h.wire.keeps (fun _ _ _ hs hp => hp.sane hs) h.dec

theorem SchedInv.sane_next {s : Sched} {base next : HpkCtx} (h : SchedInv s base next) :
    Sane next :=
  sane_foldlM h.sizes h.enc h.known

/-- A wire without headers that touch the dynamic table decodes for every table. -/
theorem wire_of_neutral {c c' : HpkCtx} {wire : List Packet} (hc : Sane c)
    (h : Path Packet.Effect c wire c') (hn : ∀ p ∈ wire, ¬ Touching p.sent) :
    c' = c ∧ ∀ p ∈ wire, ∀ x ∈ p.sent, x.Still := by
  have hneutral : ∀ p ∈ wire, ∀ x ∈ p.sent, ¬ x.Touches :=
    fun p hp x hx ht => hn p hp ⟨x, hx, ht⟩
  induction h with
  | nil => simp
  | @cons c c1 c2 p wire hp _ ih =>
    obtain ⟨rfl, hstill⟩ := stays_of_neutral hc hp (hneutral p List.mem_cons_self)
    obtain ⟨rfl, hrest⟩ := ih hc (fun q hq => hn q (List.mem_cons_of_mem _ hq))
      (fun q hq => hneutral q (List.mem_cons_of_mem _ hq))
    refine ⟨rfl, fun q hq => ?_⟩
    rcases List.mem_cons.mp hq with rfl | hq
    · exact hstill
    · exact hrest q hq

/-! ## Threads -/

theorem blocks_setBlock {s : Sched} {t u : Nat} {b : Option Block} {c : Block}
    (h : (s.setBlock t b).blocks u = some c) :
    (u = t ∧ b = some c) ∨ (u ≠ t ∧ s.blocks u = some c) := by
  by_cases hu : u = t
  · subst hu
    simp only [Sched.setBlock, Function.update_self] at h
    exact .inl ⟨rfl, h⟩
  · simp only [Sched.setBlock, Function.update_of_ne hu] at h
    exact .inr ⟨hu, h⟩

theorem holds_setBlock_ne {s : Sched} {t u : Nat} (b : Option Block) (h : u ≠ t) :
    (s.setBlock t b).Holds u ↔ s.Holds u := by
  simp [Sched.Holds, Sched.setBlock, h]

theorem holds_setBlock {s : Sched} {t : Nat} (b : Block) :
    (s.setBlock t (some b)).Holds t ↔ Touching b.sent := by
  simp [Sched.Holds, Sched.setBlock]

theorem not_holds_setBlock {s : Sched} {t : Nat} : ¬ (s.setBlock t none).Holds t := by
  simp [Sched.Holds, Sched.setBlock]

theorem not_touching_nil : ¬ Touching [] := by simp [Touching]

theorem touching_append {l : List Sent} {x : Sent} :
    Touching (l ++ [x]) ↔ Touching l ∨ x.Touches := by
  constructor
  · rintro ⟨y, hy, ht⟩
    rcases List.mem_append.mp hy with hy | hy
    · exact .inl ⟨y, hy, ht⟩
    · rw [List.mem_singleton] at hy
      subst hy
      exact .inr ht
  · rintro (⟨y, hy, ht⟩ | ht)
    · exact ⟨y, List.mem_append_left _ hy, ht⟩
    · exact ⟨x, by simp, ht⟩

theorem schedInv_begin {s s' : Sched} {base next : HpkCtx} (h : SchedInv s base next) {t : Nat}
    {buf : TxBuf} (hs : beginBlock s t buf = .ok s') : SchedInv s' base next := by
  unfold beginBlock at hs
  split at hs
  · cases hs
  · rename_i hnone
    cases hs
    have hholds : ∀ u, (s.setBlock t (some ⟨buf, ⟨[], buf.1⟩, []⟩)).Holds u ↔ s.Holds u := by
      intro u
      by_cases hu : u = t
      · subst hu
        rw [holds_setBlock]
        simp [Sched.Holds, hnone, Touching]
      · exact holds_setBlock_ne _ hu
    refine { h with bytes := ?_, still := ?_, held := ?_, free := ?_, quiet := ?_ }
    · intro u b hb
      rcases blocks_setBlock hb with ⟨rfl, hnew⟩ | ⟨_, hold⟩
      · cases hnew
        rfl
      · exact h.bytes u b hold
    · intro u b hb ht
      rcases blocks_setBlock hb with ⟨rfl, hnew⟩ | ⟨_, hold⟩
      · cases hnew
        simp
      · exact h.still u b hold ht
    · intro u b hb ht
      rcases blocks_setBlock hb with ⟨rfl, hnew⟩ | ⟨_, hold⟩
      · cases hnew
        exact absurd ht not_touching_nil
      · obtain ⟨hp, hone⟩ := h.held u b hold ht
        exact ⟨hp, fun v hv => hone v ((hholds v).mp hv)⟩
    · exact fun hf => h.free fun u hu => hf u ((hholds u).mpr hu)
    · intro hp
      obtain ⟨hf, hw⟩ := h.quiet hp
      exact ⟨fun u hu => hf u ((hholds u).mp hu), hw⟩

/-- One `HPK_EncHdr` call of the thread `t`. -/
theorem encHdr_inv {s s' : Sched} {t : Nat} {h : HpkHdr} (hs : encHdr s t h = .ok s') :
    ∃ b it enc w, s.blocks t = some b ∧ it.done = b.it.done ++ w ∧ h.Starts w ∧
      pushIf (h.t = .inc) s.enc h = .ok enc ∧
      s' = { s.setBlock t (some { b with
        it := it
        sent := b.sent ++ [⟨h, h.denotes s.enc, w⟩] }) with enc := enc } := by
  unfold encHdr at hs
  split at hs
  · cases hs
  · rename_i b hb
    obtain ⟨⟨ret, it, enc⟩, he, hs⟩ := bind_eq_ok.mp hs
    obtain ⟨hret, hs⟩ := check_bind_eq_ok.mp hs
    cases hs
    obtain ⟨⟨w, hw, hst⟩, hp⟩ := hpkEncHdr_inv he (by simpa using hret)
    refine ⟨b, it, enc, w, hb, hw, hst, hp, ?_⟩
    rw [hw, List.drop_left]

theorem bytesOf_append (l : List Sent) (x : Sent) : bytesOf (l ++ [x]) = bytesOf l ++ x.bytes := by
  simp [bytesOf]

/-- A header that leaves the dynamic table alone. -/
theorem schedInv_encHdr_neutral {s : Sched} {base next : HpkCtx} (h : SchedInv s base next)
    {t : Nat} {b : Block} {it : HpkIter} {x : Sent} (hb : s.blocks t = some b)
    (hw : it.done = b.it.done ++ x.bytes) (hx : x.Still) (hn : ¬ x.Touches) :
    SchedInv (s.setBlock t (some { b with it := it, sent := b.sent ++ [x] })) base next := by
  have hsame : Touching (b.sent ++ [x]) ↔ Touching b.sent := by
    rw [touching_append]
    simp [hn]
  have hholds : ∀ u, (s.setBlock t (some { b with it := it, sent := b.sent ++ [x] })).Holds u ↔
      s.Holds u := by
    intro u
    by_cases hu : u = t
    · subst hu
      rw [holds_setBlock, hsame]
      simp [Sched.Holds, hb]
    · exact holds_setBlock_ne _ hu
  refine { h with bytes := ?_, still := ?_, held := ?_, free := ?_, quiet := ?_ }
  · intro u c hc
    rcases blocks_setBlock hc with ⟨rfl, hnew⟩ | ⟨_, hold⟩
    · cases hnew
      rw [bytesOf_append, hw, h.bytes u b hb]
    · exact h.bytes u c hold
  · intro u c hc ht
    rcases blocks_setBlock hc with ⟨rfl, hnew⟩ | ⟨_, hold⟩
    · cases hnew
      intro y hy
      rcases List.mem_append.mp hy with hy | hy
      · exact h.still u b hb (fun hc => ht (hsame.mpr hc)) y hy
      · rw [List.mem_singleton] at hy
        subst hy
        exact hx
    · exact h.still u c hold ht
  · intro u c hc ht
    rcases blocks_setBlock hc with ⟨rfl, hnew⟩ | ⟨_, hold⟩
    · cases hnew
      obtain ⟨hp, hone⟩ := h.held u b hb (hsame.mp ht)
      exact ⟨hp.snoc (hx next h.sane_next), fun v hv => hone v ((hholds v).mp hv)⟩
    · obtain ⟨hp, hone⟩ := h.held u c hold ht
      exact ⟨hp, fun v hv => hone v ((hholds v).mp hv)⟩
  · exact fun hf => h.free fun u hu => hf u ((hholds u).mpr hu)
  · intro hp
    obtain ⟨hf, hwire⟩ := h.quiet hp
    exact ⟨fun u hu => hf u ((hholds u).mp hu), hwire⟩

/-- A header that touches the dynamic table, while the sender's table is the next one. -/
theorem schedInv_encHdr_touching {s : Sched} {base next : HpkCtx} (h : SchedInv s base next)
    {t : Nat} {b : Block} {it : HpkIter} {x : Sent} {enc : HpkCtx} (hb : s.blocks t = some b)
    (hw : it.done = b.it.done ++ x.bytes) (hx : x.Effect s.enc enc) (ht : x.Touches)
    (hp : s.pending = []) (hone : ∀ u, s.Holds u → u = t) :
    SchedInv { s.setBlock t (some { b with it := it, sent := b.sent ++ [x] }) with enc := enc }
      base enc := by
  have hnext : next = s.enc := by
    have hk := h.known
    rw [hp] at hk
    cases hk
    rfl
  subst hnext
  have hpath : Path Sent.Effect base b.sent s.enc := by
    by_cases hbt : Touching b.sent
    · exact (h.held t b hb hbt).1
    · -- nobody holds a header, so the wire leads to the sender's table
      have hfree : ∀ u, ¬ s.Holds u := by
        intro u hu
        cases hone u hu
        obtain ⟨c, hc, htc⟩ := hu
        rw [hb] at hc
        cases hc
        exact hbt htc
      cases h.free hfree
      exact Path.still fun y hy => h.still t b hb hbt y hy _ h.enc
  have hholds : Sched.Holds
      { s.setBlock t (some { b with it := it, sent := b.sent ++ [x] }) with enc := enc } t :=
    ⟨_, Function.update_self .., touching_append.mpr (.inr ht)⟩
  have hone' : ∀ u, Sched.Holds
      { s.setBlock t (some { b with it := it, sent := b.sent ++ [x] }) with enc := enc } u →
      u = t := by
    intro u hu
    by_contra hne
    exact hne (hone u ((holds_setBlock_ne _ hne).mp hu))
  refine { h with enc := hx.sane h.enc, known := ?_, bytes := ?_, still := ?_, held := ?_,
                  free := ?_, quiet := ?_ }
  · show List.foldlM hpkResizeTbl enc s.pending = .ok enc
    rw [hp]
    rfl
  · intro u c hc
    rcases blocks_setBlock hc with ⟨rfl, hnew⟩ | ⟨_, hold⟩
    · cases hnew
      rw [bytesOf_append, hw, h.bytes u b hb]
    · exact h.bytes u c hold
  · intro u c hc htc
    rcases blocks_setBlock hc with ⟨rfl, hnew⟩ | ⟨_, hold⟩
    · cases hnew
      exact absurd (touching_append.mpr (.inr ht)) htc
    · exact h.still u c hold htc
  · intro u c hc htc
    rcases blocks_setBlock hc with ⟨rfl, hnew⟩ | ⟨hne, hold⟩
    · cases hnew
      exact ⟨hpath.snoc hx, hone'⟩
    · exact absurd (hone u ⟨c, hold, htc⟩) hne
  · exact fun hf => absurd hholds (hf t)
  · exact fun hc => absurd hp hc

theorem schedInv_encHdr {s s' : Sched} {base next : HpkCtx} (h : SchedInv s base next) {t : Nat}
    {hdr : HpkHdr} (hok : SchedOk s (.encHdr t hdr)) (hs : encHdr s t hdr = .ok s') :
    ∃ next', SchedInv s' base next' := by
  obtain ⟨hsend, h0, hlen, htouch⟩ := hok
  obtain ⟨b, it, enc, w, hb, hw, hst, hp, rfl⟩ := encHdr_inv hs
  obtain ⟨e, hden⟩ := denotes_of_sendable hsend h0
  have hx : Sent.Effect s.enc ⟨hdr, hdr.denotes s.enc, w⟩ enc :=
    ⟨e, hden, hlen e hden, ⟨hsend, h0, hden, hp⟩, hst⟩
  by_cases ht : Sent.Touches ⟨hdr, hdr.denotes s.enc, w⟩
  · obtain ⟨hpend, hone⟩ := htouch ht
    exact ⟨enc, schedInv_encHdr_touching h hb hw hx ht hpend hone⟩
  · obtain ⟨rfl, hstill⟩ := still_of_neutral h.enc hx ht
    exact ⟨next, schedInv_encHdr_neutral h hb hw hstill ht⟩

/-! ## The wire -/

theorem writeBlock_inv {s s' : Sched} {t : Nat} {prio : Option Prio} {pad : Option Bytes}
    {strEnd : Bool} (hs : writeBlock s t prio pad strEnd = .ok s') :
    ∃ b f, s.blocks t = some b ∧
      tx11Frame b.buf t true strEnd b.it.done (.headers prio pad) = .ok f ∧
      s' = { s.setBlock t none with wire := s.wire ++ [⟨f, b.sent⟩] } := by
  unfold writeBlock at hs
  split at hs
  · cases hs
  · rename_i b hb
    obtain ⟨f, hf, hs⟩ := bind_eq_ok.mp hs
    cases hs
    exact ⟨b, f, hb, hf, rfl⟩

theorem mem_wire_append {wire : List Packet} {p q : Packet} (h : q ∈ wire ++ [p]) :
    q ∈ wire ∨ q = p := by
  rcases List.mem_append.mp h with h | h
  · exact .inl h
  · exact .inr (List.mem_singleton.mp h)

/-- The block that touches the dynamic table goes on the wire. -/
theorem schedInv_write_touching {s : Sched} {base next : HpkCtx} (h : SchedInv s base next)
    {t : Nat} {b : Block} {f : Frame} (hb : s.blocks t = some b) (hok : Packet.Ok ⟨f, b.sent⟩)
    (ht : Touching b.sent) :
    SchedInv { s.setBlock t none with wire := s.wire ++ [⟨f, b.sent⟩] } next next := by
  obtain ⟨hpath, hone⟩ := h.held t b hb ht
  have hnone : ∀ u, ¬ Sched.Holds
      { s.setBlock t none with wire := s.wire ++ [⟨f, b.sent⟩] } u := by
    intro u hu
    by_cases hne : u = t
    · subst hne
      exact not_holds_setBlock hu
    · exact hne (hone u ((holds_setBlock_ne _ hne).mp hu))
  refine { h with wire := h.wire.snoc hpath, packets := ?_, bytes := ?_, still := ?_, held := ?_,
                  free := fun _ => rfl, quiet := ?_ }
  · intro q hq
    rcases mem_wire_append hq with hq | rfl
    · exact h.packets q hq
    · exact hok
  · intro u c hc
    rcases blocks_setBlock hc with ⟨rfl, hnew⟩ | ⟨_, hold⟩
    · cases hnew
    · exact h.bytes u c hold
  · intro u c hc htc
    rcases blocks_setBlock hc with ⟨rfl, hnew⟩ | ⟨_, hold⟩
    · cases hnew
    · exact h.still u c hold htc
  · intro u c hc htc
    exact absurd ⟨c, hc, htc⟩ (hnone u)
  · intro hp
    exact absurd ⟨b, hb, ht⟩ ((h.quiet hp).1 t)

/-- Any other block goes on the wire. -/
theorem schedInv_write_neutral {s : Sched} {base next : HpkCtx} (h : SchedInv s base next) {t : Nat}
    {b : Block} {f : Frame} (hb : s.blocks t = some b) (hok : Packet.Ok ⟨f, b.sent⟩)
    (ht : ¬ Touching b.sent) :
    SchedInv { s.setBlock t none with wire := s.wire ++ [⟨f, b.sent⟩] } base next := by
  have hholds : ∀ u, Sched.Holds
      { s.setBlock t none with wire := s.wire ++ [⟨f, b.sent⟩] } u ↔ s.Holds u := by
    intro u
    by_cases hne : u = t
    · subst hne
      refine ⟨fun hu => absurd hu not_holds_setBlock, ?_⟩
      rintro ⟨c, hc, htc⟩
      rw [hb] at hc
      cases hc
      exact absurd htc ht
    · exact holds_setBlock_ne _ hne
  have hpath : Path Sent.Effect base b.sent base :=
    Path.still fun x hx => h.still t b hb ht x hx base h.sane_base
  refine { h with wire := h.wire.snoc hpath, packets := ?_, bytes := ?_, still := ?_, held := ?_,
                  free := ?_, quiet := ?_ }
  · intro q hq
    rcases mem_wire_append hq with hq | rfl
    · exact h.packets q hq
    · exact hok
  · intro u c hc
    rcases blocks_setBlock hc with ⟨rfl, hnew⟩ | ⟨_, hold⟩
    · cases hnew
    · exact h.bytes u c hold
  · intro u c hc htc
    rcases blocks_setBlock hc with ⟨rfl, hnew⟩ | ⟨_, hold⟩
    · cases hnew
    · exact h.still u c hold htc
  · intro u c hc htc
    rcases blocks_setBlock hc with ⟨rfl, hnew⟩ | ⟨_, hold⟩
    · cases hnew
    · obtain ⟨hp, hone⟩ := h.held u c hold htc
      exact ⟨hp, fun v hv => hone v ((hholds v).mp hv)⟩
  · exact fun hf => h.free fun u hu => hf u ((hholds u).mpr hu)
  · intro hp
    obtain ⟨hf, hwire⟩ := h.quiet hp
    refine ⟨fun u hu => hf u ((hholds u).mp hu), fun q hq => ?_⟩
    rcases mem_wire_append hq with hq | rfl
    · exact hwire q hq
    · exact ht

theorem schedInv_write {s s' : Sched} {base next : HpkCtx} (h : SchedInv s base next) {t : Nat}
    {prio : Option Prio} {pad : Option Bytes} {strEnd : Bool}
    (hok : SchedOk s (.write t prio pad strEnd)) (hs : writeBlock s t prio pad strEnd = .ok s') :
    ∃ base', SchedInv s' base' next := by
  obtain ⟨b, f, hb, hf, rfl⟩ := writeBlock_inv hs
  obtain ⟨hleg, hlen⟩ := hok b hb
  have hp : Packet.Ok ⟨f, b.sent⟩ := by
    refine ⟨fun fatal streams k => ?_, hleg, hlen⟩
    have := headers_block_arrives hf fatal streams k []
    rwa [List.nil_append, h.bytes t b hb] at this
  by_cases ht : Touching b.sent
  · exact ⟨next, schedInv_write_touching h hb hp ht⟩
  · exact ⟨base, schedInv_write_neutral h hb hp ht⟩

/-- The next block on the wire is decoded to the headers it was encoded from. -/
theorem SchedInv.receive {s : Sched} {base next : HpkCtx} (h : SchedInv s base next) {p : Packet}
    {wire : List Packet} (hw : s.wire = p :: wire) :
    ∃ s' got, receiveBlock s = .ok s' ∧ SchedInv s' base next ∧ s'.wire = wire ∧
      s'.log = s.log ++ [⟨p.sent, got⟩] ∧ Arrival.Faithful ⟨p.sent, got⟩ := by
  have hwire := h.wire
  rw [hw] at hwire
  cases hwire with
  | @cons _ c1 _ _ _ hp hrest =>
  have hpk := h.packets p (by rw [hw]; exact List.mem_cons_self)
  obtain ⟨streams, f', hparse⟩ := hpk.block s.fatal s.streams
    (s.streams.findIdx (·.id = p.frame.stid))
  obtain ⟨hdrs, hdec, hslots, hall⟩ := decodeHdr_block s.fatal hp hpk.legible hpk.length
  have hclean := (h.hdrs p.frame.stid).clean
  refine ⟨{ s with
    dec := c1
    streams := streams
    wire := wire
    hdrs := Function.update s.hdrs p.frame.stid hdrs
    log := s.log ++ [⟨p.sent, headersOf hdrs⟩] }, headersOf hdrs, ?_, ?_, rfl, rfl, hall⟩
  · simp only [receiveBlock, hw, hclean, ok_bind, hparse, hdec, pure_res]
  · have hsub : ∀ q ∈ wire, q ∈ s.wire := by
      intro q hq
      rw [hw]
      exact List.mem_cons_of_mem _ hq
    refine { h with dec := hp.sane h.dec, wire := hrest, packets := ?_, quiet := ?_, hdrs := ?_,
                    log := ?_ }
    · exact fun q hq => h.packets q (hsub q hq)
    · intro hpend
      obtain ⟨hf, hn⟩ := h.quiet hpend
      exact ⟨hf, fun q hq => hn q (hsub q hq)⟩
    · intro id
      by_cases hid : id = p.frame.stid
      · subst hid
        simp only [Function.update_self]
        exact hslots
      · simp only [Function.update_of_ne hid]
        exact h.hdrs id
    · intro a ha
      rcases List.mem_append.mp ha with ha | ha
      · exact h.log a ha
      · rw [List.mem_singleton] at ha
        subst ha
        exact hall

/-! ## Table sizes -/

theorem pending_resize (s : Sched) (dec : HpkCtx) (val : UInt32) :
    Sched.pending { s with dec := dec, sizes := s.sizes ++ [val] } = s.pending ++ [val] := by
  simp [Sched.pending]

theorem schedInv_resize {s s' : Sched} {base next : HpkCtx} (h : SchedInv s base next)
    {val : UInt32} (hok : SchedOk s (.resize val)) (hs : resizeDec s val = .ok s') :
    ∃ ctx, SchedInv s' ctx ctx := by
  obtain ⟨hval, hfree, hneutral⟩ := hok
  unfold resizeDec at hs
  split at hs
  · cases hs
  · obtain ⟨dec, hdec, hs⟩ := bind_eq_ok.mp hs
    cases hs
    obtain ⟨hbase, hstill⟩ := wire_of_neutral h.dec h.wire hneutral
    have hnext : s.dec = next := hbase.symm.trans (h.free hfree)
    have hsane : Sane dec := h.dec.resize hval hdec
    refine ⟨dec, { h with dec := hsane, sizes := ?_, known := ?_, wire := ?_, held := ?_,
                          free := fun _ => rfl, quiet := fun _ => ⟨hfree, hneutral⟩ }⟩
    · intro v hv
      rw [pending_resize] at hv
      rcases List.mem_append.mp hv with hv | hv
      · exact h.sizes v hv
      · rw [List.mem_singleton] at hv
        subst hv
        exact hval
    · rw [pending_resize, List.foldlM_append]
      show (s.pending.foldlM hpkResizeTbl s.enc >>= fun c => [val].foldlM hpkResizeTbl c) = _
      rw [h.known, ok_bind, List.foldlM_cons, ← hnext, hdec]
      rfl
    · exact Path.still fun p hp => Path.still fun x hx => hstill p hp x hx dec hsane
    · exact fun t b hb ht => absurd ⟨b, hb, ht⟩ (hfree t)

/-- The sizes of a `SETTINGS` frame read back. -/
theorem hdrtblOf_frame (sizes : List UInt32) : hdrtblOf (hdrtblFrame sizes) = sizes := by
  have hof : settingsOf (settingsData (sizes.map fun v => .raw 1 v.toNat)) =
      (sizes.map fun v => TxSetting.raw 1 v.toNat).map TxSetting.pair := by
    apply settingsOf_data
    intro o ho
    obtain ⟨v, _, rfl⟩ := List.mem_map.mp ho
    exact ⟨(by decide : 1 < 2 ^ 16), v.toNat_lt⟩
  unfold hdrtblOf hdrtblFrame settingsFrame
  simp only [hof]
  induction sizes with
  | nil => rfl
  | cons v sizes ih =>
    simp only [List.map_cons, TxSetting.pair, List.filterMap_cons, if_true, UInt32.ofNat_toNat]
    congr 1
    exact ih (settingsOf_data fun o ho => by
      obtain ⟨v, _, rfl⟩ := List.mem_map.mp ho
      exact ⟨(by decide : 1 < 2 ^ 16), v.toNat_lt⟩)

theorem schedInv_writeSettings {s : Sched} {base next : HpkCtx} (h : SchedInv s base next) :
    SchedInv { s with settings := s.settings ++ [hdrtblFrame s.sizes], sizes := [] } base next := by
  have hpend : Sched.pending { s with
      settings := s.settings ++ [hdrtblFrame s.sizes]
      sizes := [] } = s.pending := by
    simp [Sched.pending, hdrtblOf_frame]
  refine { h with sizes := ?_, known := ?_, quiet := ?_ }
  · rw [hpend]
    exact h.sizes
  · rw [hpend]
    exact h.known
  · rw [hpend]
    exact h.quiet

theorem schedInv_rxSettings {s s' : Sched} {base next : HpkCtx} (h : SchedInv s base next)
    (hs : rxSettings s = .ok s') : SchedInv s' base next := by
  unfold rxSettings at hs
  split at hs
  · cases hs
  · rename_i f settings hset
    obtain ⟨enc, henc, hs⟩ := bind_eq_ok.mp hs
    cases hs
    have hpend : s.pending = hdrtblOf f ++
        Sched.pending { s with enc := enc, settings := settings } := by
      simp [Sched.pending, hset]
    have hsizes := h.sizes
    have hknown := h.known
    rw [hpend] at hsizes
    rw [hpend, List.foldlM_append, henc, ok_bind] at hknown
    refine { h with enc := ?_, sizes := ?_, known := hknown, quiet := ?_ }
    · exact sane_foldlM (fun v hv => hsizes v (List.mem_append_left _ hv)) h.enc henc
    · exact fun v hv => hsizes v (List.mem_append_right _ hv)
    · intro hne
      refine h.quiet ?_
      rw [hpend]
      exact fun e => hne (List.append_eq_nil_iff.mp e).2

/-! ## Runs -/

theorem schedStep_inv (s : Sched) (act : SchedAct) (s' : Sched)
    (h : ∃ base next, SchedInv s base next) (hok : SchedOk s act)
    (hs : schedStep s act = .ok s') : ∃ base next, SchedInv s' base next := by
  obtain ⟨base, next, h⟩ := h
  cases act with
  | begin t buf => exact ⟨base, next, schedInv_begin h hs⟩
  | encHdr t hdr =>
    obtain ⟨next', h'⟩ := schedInv_encHdr h hok hs
    exact ⟨base, next', h'⟩
  | write t prio pad strEnd =>
    obtain ⟨base', h'⟩ := schedInv_write h hok hs
    exact ⟨base', next, h'⟩
  | receive =>
    cases hw : s.wire with
    | nil =>
      simp only [schedStep, receiveBlock, hw] at hs
      cases hs
    | cons p wire =>
      obtain ⟨s1, got, hrec, h', _⟩ := h.receive hw
      simp only [schedStep, hrec] at hs
      cases hs
      exact ⟨base, next, h'⟩
  | resize val =>
    obtain ⟨ctx, h'⟩ := schedInv_resize h hok hs
    exact ⟨ctx, ctx, h'⟩
  | writeSettings =>
    cases hs
    exact ⟨base, next, schedInv_writeSettings h⟩
  | rxSettings => exact ⟨base, next, schedInv_rxSettings h hs⟩

/-! ## Blocks of a test -/

/-- A frame without priority and padding. -/
theorem tx11Frame_plain (blk : TxBuf) (stid : Nat) (strEnd : Bool) (block : Bytes)
    (h : block.length ≤ 1024) :
    tx11Frame blk stid true strEnd block (.headers none none) = .ok {
      size := block.length
      stid := stid
      type := typeHeaders
      flags := baseFlags true strEnd
      data := block } := by
  have hle : block.length ≤ blk.1.length := by
    have := lt_bufSize
    rw [blk.2]
    omega
  simp [tx11Frame, poke_zero hle, addPriority?, addPadding?, sendBuf, flagIf]

/-- A buffer that starts with some zero bytes. -/
theorem exists_blank : ∃ (blk : TxBuf) (r : Bytes),
    blk.1 = 0 :: 0 :: 0 :: 0 :: 0 :: 0 :: 0 :: r := by
  have := lt_bufSize
  refine ⟨⟨List.replicate 7 0 ++ List.replicate (bufSize - 7) 0, ?_⟩, _, rfl⟩
  rw [List.length_append, List.length_replicate, List.length_replicate]
  omega

/-- Headers that go into the table. -/
def hdrAB : HpkHdr := ⟨.of [97], .of [98], .inc, 0⟩

def hdrCD : HpkHdr := ⟨.of [99], .of [100], .inc, 0⟩

theorem encHdr_hdrAB {blk : TxBuf} {r : Bytes}
    (h : blk.1 = 0 :: 0 :: 0 :: 0 :: 0 :: 0 :: 0 :: r) :
    hpkEncHdr (hpkNewCtx 4096) ⟨[], blk.1⟩ hdrAB =
      .ok (.more, ⟨[0x40, 1, 97, 1, 98], 0 :: 0 :: r⟩, ⟨[⟨[97], [98]⟩], 4096, 34⟩) := by
  rw [h]
  rfl

/-- **Header blocks decode under every schedule that keeps the tables apart.** In every run whose
steps meet `SchedOk`, every block that was received came out as the headers it was encoded from,
and the next block on the wire will. -/
theorem header_blocks_decode (fatal : Bool) (streams : List PrioStream) {acts : List SchedAct}
    {s : Sched} (hok : Along schedStep SchedOk { fatal := fatal, streams := streams } acts)
    (hr : run schedStep { fatal := fatal, streams := streams } acts = .ok s) :
    (∀ a ∈ s.log, a.Faithful) ∧
      ∀ p wire, s.wire = p :: wire → ∃ s' got, schedStep s .receive = .ok s' ∧
        s'.wire = wire ∧ s'.log = s.log ++ [⟨p.sent, got⟩] ∧ Arrival.Faithful ⟨p.sent, got⟩ := by
  obtain ⟨base, next, h⟩ := run_preserves schedStep_inv acts _ s
    ⟨_, _, schedInv_start fatal streams⟩ hok hr
  refine ⟨h.log, fun p wire hw => ?_⟩
  obtain ⟨s', got, hs, _, hrest⟩ := h.receive hw
  exact ⟨s', got, hs, hrest⟩

/-- A block that inserts a header and sends it again by its index. -/
theorem header_blocks_decode_index : ∃ (blk : TxBuf) (s : Sched) (p : Packet),
    run schedStep {} [.begin 1 blk, .encHdr 1 hdrAB, .encHdr 1 { t := .idx, i := 62 },
      .write 1 none none true] = .ok s ∧ s.wire = [p] ∧ p.sent.length = 2 ∧
      ∃ s' got, schedStep s .receive = .ok s' ∧ s'.log = s.log ++ [⟨p.sent, got⟩] ∧
        Arrival.Faithful ⟨p.sent, got⟩ := by
  obtain ⟨blk, r, hblk⟩ := exists_blank
  have h1 := encHdr_hdrAB hblk
  have h2 : hpkEncHdr ⟨[⟨[97], [98]⟩], 4096, 34⟩ ⟨[0x40, 1, 97, 1, 98], 0 :: 0 :: r⟩
      { t := .idx, i := 62 } =
      .ok (.more, ⟨[0x40, 1, 97, 1, 98, 0xbe], 0 :: r⟩, ⟨[⟨[97], [98]⟩], 4096, 34⟩) := rfl
  have h3 := tx11Frame_plain blk 1 true [0x40, 1, 97, 1, 98, 0xbe] (by decide)
  have hok : Along schedStep SchedOk {} [.begin 1 blk, .encHdr 1 hdrAB,
      .encHdr 1 { t := .idx, i := 62 }, .write 1 none none true] := by
    refine ⟨trivial, fun s1 hs1 => ?_⟩
    cases hs1
    refine ⟨⟨?_, by decide, ?_, ?_⟩, fun s2 hs2 => ?_⟩
    · exact .inr ⟨rfl, ⟨[98], false, rfl⟩, .inr ⟨rfl, [97], false, by decide, rfl⟩⟩
    · intro e he
      cases he
      decide
    · refine fun _ => ⟨rfl, fun u hu => ?_⟩
      by_contra hne
      obtain ⟨b, hb, _⟩ := (holds_setBlock_ne _ hne).mp hu
      cases hb
    simp [schedStep, encHdr, Sched.setBlock, h1] at hs2
    subst hs2
    refine ⟨⟨.inl ⟨rfl, rfl⟩, by decide, ?_, ?_⟩, fun s3 hs3 => ?_⟩
    · intro e he
      cases he
      decide
    · refine fun _ => ⟨rfl, fun u hu => ?_⟩
      by_contra hne
      obtain ⟨b, hb, _⟩ := hu
      simp [hne] at hb
    simp [schedStep, encHdr, Sched.setBlock, h2] at hs3
    subst hs3
    refine ⟨fun b hb => ?_, fun s4 hs4 => trivial⟩
    simp at hb
    subst hb
    refine ⟨⟨?_, ?_, trivial⟩, (by decide : 2 < maxHdr)⟩
    · show Legible [] _ (0x40 :: ([1, 97] ++ [1, 98])) [0xbe]
      exact .name rfl rfl (fun _ => rfl) (fun _ => rfl)
    · exact .idx rfl rfl
  have hr : ∃ s p, run schedStep {} [.begin 1 blk, .encHdr 1 hdrAB,
      .encHdr 1 { t := .idx, i := 62 }, .write 1 none none true] = .ok s ∧ s.wire = [p] ∧
      p.sent.length = 2 := by
    simp [schedStep, beginBlock, encHdr, writeBlock, Sched.setBlock, h1, h2, h3]
  obtain ⟨s, p, hr, hw, hlen⟩ := hr
  obtain ⟨s', got, hs, _, hlog, hall⟩ := (header_blocks_decode true [] hok hr).2 p [] hw
  exact ⟨blk, s, p, hr, hw, hlen, s', got, hs, hlog, hall⟩

/-- Two threads encode, and the second writes first: its block refers to the header of the first,
which the receiver has not seen, so decoding fails. -/
theorem block_overtakes_block : ∃ blk : TxBuf,
    run schedStep {} [.begin 1 blk, .encHdr 1 hdrAB, .begin 3 blk, .encHdr 3 hdrCD,
      .encHdr 3 { t := .idx, i := 63 }, .write 3 none none true, .receive] = .error .fatal := by
  obtain ⟨blk, r, hblk⟩ := exists_blank
  refine ⟨blk, ?_⟩
  have h1 := encHdr_hdrAB hblk
  have h2 : hpkEncHdr ⟨[⟨[97], [98]⟩], 4096, 34⟩ ⟨[], blk.1⟩ hdrCD =
      .ok (.more, ⟨[0x40, 1, 99, 1, 100], 0 :: 0 :: r⟩,
        ⟨[⟨[99], [100]⟩, ⟨[97], [98]⟩], 4096, 68⟩) := by
    rw [hblk]
    rfl
  have h3 : hpkEncHdr ⟨[⟨[99], [100]⟩, ⟨[97], [98]⟩], 4096, 68⟩
      ⟨[0x40, 1, 99, 1, 100], 0 :: 0 :: r⟩ { t := .idx, i := 63 } =
      .ok (.more, ⟨[0x40, 1, 99, 1, 100, 0xbf], 0 :: r⟩,
        ⟨[⟨[99], [100]⟩, ⟨[97], [98]⟩], 4096, 68⟩) := rfl
  have h4 := tx11Frame_plain blk 3 true [0x40, 1, 99, 1, 100, 0xbf] (by decide)
  have h5 : parseHdr true [] 0
      ⟨6, 3, typeHeaders, baseFlags true true, [0x40, 1, 99, 1, 100, 0xbf], 0⟩ [] =
      .ok ([], ⟨6, 3, typeHeaders, baseFlags true true, [0x40, 1, 99, 1, 100, 0xbf], 0⟩,
        [0x40, 1, 99, 1, 100, 0xbf]) := rfl
  have h6 : decodeHdr true (hpkNewCtx 4096) (noHeaders maxHdr) [0x40, 1, 99, 1, 100, 0xbf] =
      .error .fatal := rfl
  simp [schedStep, beginBlock, encHdr, writeBlock, receiveBlock, Sched.setBlock, h1, h2, h3, h4, h5,
    h6, slots_noHeaders.clean]

end Http2
end VTest
