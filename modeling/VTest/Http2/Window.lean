import VTest.Lib.Run
import VTest.Http2.HdrFrame

/-!
# VTest.Http2.Window

Flow control between two endpoints: the six places of `vtc_http2.c` that change a window, each end
with its receive thread and its stream threads, and the two byte streams between them.

Windows are integers (`int64_t` does not wrap for the credits of a test). The streams of an end are
a map from ids. Frames that are queued stand oldest first. A call that waits (`rxstuff` on an empty
queue, `receive_frame` for a stream that does not exist yet) has no step.
-/

namespace VTest
namespace Http2

inductive Side where
  | a
  | b
  deriving DecidableEq, Repr

def Side.other : Side → Side
  | .a => .b
  | .b => .a

@[simp] theorem Side.other_other (x : Side) : x.other.other = x := by cases x <;> rfl

@[simp] theorem Side.other_ne (x : Side) : x.other ≠ x := by cases x <;> decide

@[simp] theorem Side.ne_other (x : Side) : x ≠ x.other := by cases x <;> decide

/-- The part of `struct stream` that flow control and data use. -/
structure WinStream where
  winSelf : Int
  winPeer : Int
  body : Bytes := []
  fq : List Frame := []

/-- The part of `struct http`. `fatal` is off after the command `non_fatal`. -/
structure WinEnd where
  selfInit : Int := 0xffff
  selfSize : Int := 0xffff
  peerInit : Int := 0xffff
  peerSize : Int := 0xffff
  streams : Nat → Option WinStream := fun _ => none
  fatal : Bool := true

/-- Both ends, and the bytes each has written that the other has not read. -/
structure Conn where
  ends : Side → WinEnd := fun _ => {}
  wire : Side → Bytes := fun _ => []

def WinEnd.setStream (e : WinEnd) (id : Nat) (s : WinStream) : WinEnd :=
  { e with streams := Function.update e.streams id (some s) }

def Conn.setEnd (c : Conn) (x : Side) (e : WinEnd) : Conn :=
  { c with ends := Function.update c.ends x e }

def Conn.setWire (c : Conn) (x : Side) (w : Bytes) : Conn :=
  { c with wire := Function.update c.wire x w }

/-- The stream a command runs on. -/
def WinEnd.stream (e : WinEnd) (id : Nat) : Res WinStream :=
  match e.streams id with
  | some s => .ok s
  | none => .error .fuel

/-! ## Sending -/

/-- `stream_new`. The command `stream` finds a stream that exists. -/
def streamNew (e : WinEnd) (id : Nat) : WinEnd :=
  match e.streams id with
  | some _ => e
  | none => e.setStream id { winSelf := e.selfInit, winPeer := e.peerInit }

/-- `write_frame` on the connection windows and the windows of the stream. -/
def writeFrameWin (e : WinEnd) (id : Nat) (s : WinStream) (f : Frame) : WinEnd :=
  if f.type = typeData then
    { e with peerSize := e.peerSize - f.size }.setStream id { s with winPeer := s.winPeer - f.size }
  else e

def writeFrame (c : Conn) (x : Side) (id : Nat) (f : Frame) : Res Conn := do
  let s ← (c.ends x).stream id
  return (c.setEnd x (writeFrameWin (c.ends x) id s f)).setWire x (c.wire x ++ f.bytes)

/-- The frame of `txdata`. Without padding it is also the frame `txreq` and `txresp` send for a
body. -/
def dataFrame (id : Nat) (body : Bytes) (pad : Option Bytes) (strEnd : Bool) : Res Frame :=
  match pad with
  | none => .ok {
      size := body.length
      stid := id
      type := typeData
      flags := flagIf strEnd flagEndStream
      data := body }
  | some pad => do
    fatalIf (255 < pad.length)
    return {
      size := 1 + body.length + pad.length
      stid := id
      type := typeData
      flags := flagIf strEnd flagEndStream ||| flagPadded
      data := [UInt8.ofNat pad.length] ++ body ++ pad }

/-- The options of `txsettings`: `-winsize` changes the own windows, and every other one only adds a
pair to the frame. -/
inductive TxSetting where
  | winsize (val : Nat)
  | raw (tag val : Nat)

def TxSetting.pair : TxSetting → Nat × Nat
  | .winsize val => (4, val)
  | .raw tag val => (tag, val)

/-- `-winsize` on every stream of the end. -/
def WinEnd.setSelfInit (e : WinEnd) (val : Int) : WinEnd :=
  { e with
    selfInit := val
    streams := fun id => (e.streams id).map fun s =>
      { s with winSelf := s.winSelf + (val - e.selfInit) } }

def TxSetting.apply (e : WinEnd) : TxSetting → WinEnd
  | .winsize val => e.setSelfInit val
  | .raw _ _ => e

def settingsData (l : List TxSetting) : Bytes :=
  l.flatMap fun o => vbe16enc o.pair.1 ++ vbe32enc o.pair.2

def settingsFrame (l : List TxSetting) (ack : Bool) : Frame where
  size := (settingsData l).length
  stid := 0
  type := typeSettings
  flags := flagIf ack flagAck
  data := settingsData l

/-- The payload is put together in 512 bytes of the stack. -/
def txsettings (c : Conn) (x : Side) (l : List TxSetting) (ack : Bool) : Res Conn :=
  if 512 < (settingsData l).length then .error .ub
  else writeFrame (c.setEnd x (l.foldl TxSetting.apply (c.ends x))) x 0 (settingsFrame l ack)

def winupFrame (id size : Nat) : Frame where
  size := 4
  stid := id
  type := typeWindowUpdate
  flags := 0
  data := vbe32enc size

def WinEnd.grant (e : WinEnd) (id : Nat) (s : WinStream) (size : Nat) : WinEnd :=
  { e with selfSize := if id = 0 then e.selfSize + size else e.selfSize }.setStream id
    { s with winSelf := s.winSelf + size }

def txwinup (c : Conn) (x : Side) (id size : Nat) : Res Conn := do
  let s ← (c.ends x).stream id
  writeFrame (c.setEnd x ((c.ends x).grant id s size)) x id (winupFrame id size)

/-! ## Receiving -/

/-- What `parse_data` takes as the data of a frame: the size and the bytes. A padding that is too
long ends the test, or makes the size wrap. -/
def dataSpan (fatal : Bool) (f : Frame) : Res (Nat × Bytes) :=
  if f.flags &&& flagPadded ≠ 0 then do
    let b ← load f.mem 0
    if f.size ≤ b.toNat then .error (if fatal then .fatal else .ub)
    else .ok (f.size - (b.toNat + 1), f.data.drop 1)
  else .ok (f.size, f.data)

/-- An empty `DATA` frame must have no data pointer, which a padded one has. -/
def parseData (e : WinEnd) (s : WinStream) (f : Frame) : Res (WinEnd × WinStream) := do
  let (size, data) ← dataSpan e.fatal f
  let s := { s with winSelf := if f.stid ≠ 0 then s.winSelf - size else s.winSelf }
  let e := { e with selfSize := e.selfSize - size }
  if size = 0 then
    check (f.size = 0)
    return (e, s)
  else return (e, { s with body := s.body ++ data.take size })

/-- `parse_winup` stores the increment in the union. -/
def parseWinup (fatal : Bool) (f : Frame) : Res Frame := do
  fatalIf (f.size ≠ 4)
  let b ← load f.mem 0
  fatalIf (fatal && b &&& 0x80 ≠ 0)
  let size ← vbe32dec f.mem
  return { f with md := UInt32.ofNat size }

/-- The pairs of a `SETTINGS` payload. -/
def settingsOf : Bytes → List (Nat × Nat)
  | a :: b :: c :: d :: e :: g :: r =>
    (a.toNat * 2 ^ 8 + b.toNat,
      c.toNat * 2 ^ 24 + d.toNat * 2 ^ 16 + e.toNat * 2 ^ 8 + g.toNat) :: settingsOf r
  | _ => []

theorem settingsOf_data {l : List TxSetting} (h : ∀ o ∈ l, o.pair.1 < 2 ^ 16 ∧ o.pair.2 < 2 ^ 32) :
    settingsOf (settingsData l) = l.map TxSetting.pair := by
  induction l with
  | nil => rfl
  | cons o l ih =>
    obtain ⟨h1, h2⟩ := h o List.mem_cons_self
    have ih := ih (fun p hp => h p (List.mem_cons_of_mem _ hp))
    rw [settingsData] at ih ⊢
    rw [List.flatMap_cons, List.map_cons, ← ih]
    simp only [vbe16enc, vbe32enc, List.cons_append, List.nil_append, settingsOf,
      UInt8.toNat_ofNat']
    congr 1
    ext
    · simp only
      omega
    · simp only
      omega

/-- `md.settings[t]`: the last value for a tag. -/
def lastSetting (t : Nat) (l : List (Nat × Nat)) : Option Nat :=
  l.foldl (fun v p => if p.1 = t then some p.2 else v) none

theorem lastSetting_append (t : Nat) (l : List (Nat × Nat)) (p : Nat × Nat) :
    lastSetting t (l ++ [p]) = if p.1 = t then some p.2 else lastSetting t l := by
  simp [lastSetting]

theorem mem_of_lastSetting {t v : Nat} {l : List (Nat × Nat)} (h : lastSetting t l = some v) :
    (t, v) ∈ l := by
  induction l using List.reverseRecOn with
  | nil => cases h
  | append_singleton l p ih =>
    rw [lastSetting_append] at h
    split at h
    · rename_i hp
      cases h
      rw [← hp]
      exact List.mem_append_right l (List.mem_singleton_self p)
    · exact List.mem_append_left [p] (ih h)

theorem lastSetting_eq_none {t : Nat} {l : List (Nat × Nat)} :
    lastSetting t l = none ↔ ∀ p ∈ l, p.1 ≠ t := by
  induction l using List.reverseRecOn with
  | nil => simp [lastSetting]
  | append_singleton l p ih =>
    rw [lastSetting_append, List.forall_mem_append, ← ih]
    by_cases hp : p.1 = t
    · simp [hp]
    · simp [hp]

/-- What `receive_frame` does with a frame of stream `s`. Header blocks do not touch the
windows. -/
def parseFrame (e : WinEnd) (s : WinStream) (f : Frame) : Res (WinEnd × WinStream × Frame) :=
  if f.type = typeData then do
    let (e, s) ← parseData e s f
    return (e, s, f)
  else if f.type = typeHeaders ∨ f.type = typeContinuation then .ok (e, s, f)
  else if f.type = typeSettings then do
    fatalIf (f.size % 6 ≠ 0)
    fatalIf (f.stid ≠ 0)
    return (e, s, f)
  else if f.type = typeWindowUpdate then do
    let f ← parseWinup e.fatal f
    return (e, s, f)
  else .error .assert

/-- One turn of `receive_frame` at the end `x`. -/
def receiveFrame (c : Conn) (x : Side) (stack heap : Nat → UInt8) (evs : List RxEvent) :
    Res Conn := do
  let (f, rest, _) ← rxFrame stack heap evs (c.wire x.other)
  match f with
  | none => .error .fuel
  | some f =>
    let s ← (c.ends x).stream f.stid
    let (e, s, f) ← parseFrame (c.ends x) s f
    return (c.setEnd x (e.setStream f.stid { s with fq := s.fq ++ [f] })).setWire x.other rest

/-! ## Taking frames off the queue -/

/-- A call of `rxstuff`, by the command that makes it: `rxmsg` is the first loop of `rxreq` and
`rxresp`, which goes on past `WINDOW_UPDATE` frames; their other two are those of `rxcont` and
`rxdata`. -/
inductive RxCall where
  | rxdata
  | rxhdrs
  | rxcont
  | rxmsg
  | rxframe
  | rxwinup
  | rxsettings
  deriving DecidableEq, Repr

/-- `CHKFRAME`. -/
def RxCall.accepts : RxCall → UInt8 → Bool
  | .rxdata, t => t = typeData
  | .rxhdrs, t => t = typeHeaders
  | .rxcont, t => t = typeContinuation
  | .rxmsg, t => t = typeWindowUpdate || t = typeHeaders
  | .rxframe, _ => true
  | .rxwinup, t => t = typeWindowUpdate
  | .rxsettings, t => t = typeSettings

def WinEnd.setPeerInit (e : WinEnd) (val : Int) : WinEnd :=
  { e with
    peerInit := val
    streams := fun id => (e.streams id).map fun s =>
      { s with winPeer := s.winPeer + (val - e.peerInit) } }

/-- `cmd_rxsettings`. A value of 2^31 or more is stored as a negative number. -/
def rxsettings (e : WinEnd) (f : Frame) : Res WinEnd :=
  match lastSetting 4 (settingsOf f.data) with
  | none => .ok e
  | some val => if val < 2 ^ 31 then .ok (e.setPeerInit val) else .error .ub

def WinEnd.earn (e : WinEnd) (id : Nat) (s : WinStream) (size : Nat) : WinEnd :=
  { e with peerSize := if id = 0 then e.peerSize + size else e.peerSize }.setStream id
    { s with winPeer := s.winPeer + size }

/-- What a command does with the frame it took. -/
def useFrame (e : WinEnd) (id : Nat) (s : WinStream) (f : Frame) : RxCall → Res WinEnd
  | .rxwinup => .ok (e.earn id s f.md.toNat)
  | .rxsettings => rxsettings (e.setStream id s) f
  | _ => .ok (e.setStream id s)

def rxstuff (c : Conn) (x : Side) (id : Nat) (call : RxCall) : Res Conn := do
  let s ← (c.ends x).stream id
  match s.fq with
  | [] => .error .fuel
  | f :: fq =>
    fatalIf (!call.accepts f.type)
    let e ← useFrame (c.ends x) id { s with fq := fq } f call
    return c.setEnd x e

/-! ## The machine -/

inductive WinAct where
  | create (x : Side) (id : Nat)
  | txdata (x : Side) (id : Nat) (body : Bytes) (pad : Option Bytes) (strEnd : Bool)
  | txhdrs (x : Side) (f : Frame)
  | txwinup (x : Side) (id size : Nat)
  | txsettings (x : Side) (l : List TxSetting) (ack : Bool)
  | receive (x : Side) (stack heap : Nat → UInt8) (evs : List RxEvent)
  | rx (x : Side) (id : Nat) (call : RxCall)

def winStep (c : Conn) : WinAct → Res Conn
  | .create x id => .ok (c.setEnd x (streamNew (c.ends x) id))
  | .txdata x id body pad strEnd => do
    let f ← dataFrame id body pad strEnd
    writeFrame c x id f
  | .txhdrs x f => writeFrame c x f.stid f
  | .txwinup x id size => txwinup c x id size
  | .txsettings x l ack => txsettings c x l ack
  | .receive x stack heap evs => receiveFrame c x stack heap evs
  | .rx x id call => rxstuff c x id call

end Http2
end VTest
