import VTest.Http2.HdrBlock
import VTest.Http2.Window

/-!
# VTest.Http2.RxLoop

What `receive_frame` does with a frame once it has been read and its stream was found: the `switch`
over the frame types and the parsers it calls. The header block that is being put together is kept
in three locals of `receive_frame`, `expect_cont`, `hdrs` and `vsb`.

Of the union `md` the numbers are kept that stand first in it: the stream of a `PRIORITY` frame, the
error of `RST_STREAM` and `GOAWAY`, the size of `WINDOW_UPDATE`, and what `parse_hdr` stores.
-/

namespace VTest
namespace Http2

open Hpack

def typePriority : UInt8 := 0x2

def typeRstStream : UInt8 := 0x3

def typePing : UInt8 := 0x6

def typeGoaway : UInt8 := 0x7

/-- Which of the two header arrays of a stream. -/
inductive HdrSide where
  | req
  | resp
  deriving DecidableEq, Repr

/-- The locals of `receive_frame`. `hdrs` points to an array of a stream. -/
structure Asm where
  expectCont : Nat := 0
  hdrs : Option (Nat × HdrSide) := none
  vsb : Option Bytes := none

/-- An end of a connection as `receive_frame` sees it. `server` says that `hp->sfd` is set.
`handed` is history: what was handed to `decode_hdr`. -/
structure Rx where
  win : WinEnd := {}
  server : Bool := true
  prio : List PrioStream := []
  slots : Nat × HdrSide → List HpkHdr := fun _ => noHeaders maxHdr
  enc : HpkCtx := hpkNewCtx 4096
  dec : HpkCtx := hpkNewCtx 4096
  asm : Asm := {}
  handed : List Bytes := []

def Rx.setSlots (r : Rx) (p : Nat × HdrSide) (h : List HpkHdr) : Rx :=
  { r with slots := Function.update r.slots p h }

/-- The place of a stream in the list of streams. -/
def Rx.place (r : Rx) (f : Frame) : Nat := r.prio.findIdx (·.id = f.stid)

/-- The frames of a stream that wait for `rxstuff`, oldest first. -/
def Rx.queue (r : Rx) (id : Nat) : List Frame :=
  match r.win.streams id with
  | some s => s.fq
  | none => []

/-- A frame without what its parser has stored in it. -/
def Frame.sent (f : Frame) : Frame := { f with md := 0 }

/-! ## Header blocks -/

/-- The case of `PUSH_PROMISE` and `HEADERS`, up to where it falls through. -/
def openBlock (r : Rx) (hdrs : Nat × HdrSide) : Res Rx := do
  let h ← cleanHeaders (r.slots hdrs)
  check r.asm.vsb.isNone
  return { r.setSlots hdrs h with asm := { r.asm with hdrs := some hdrs, vsb := some [] } }

/-- `END_HEADERS`. -/
def endBlock (r : Rx) (hdrs : Nat × HdrSide) (vsb : Bytes) : Res Rx := do
  let d ← decodeHdr r.win.fatal r.dec (r.slots hdrs) vsb
  return { r.setSlots hdrs d.1 with dec := d.2, asm := {}, handed := r.handed ++ [vsb] }

/-- The case of `CONTINUATION`, which the other two fall through to. -/
def addFragment (r : Rx) (f : Frame) : Res (Rx × Frame) :=
  match r.asm.hdrs, r.asm.vsb with
  | some hdrs, some vsb => do
    let p ← parseHdr r.win.fatal r.prio (r.place f) f vsb
    let r := { r with prio := p.1, asm := ⟨f.stid, some hdrs, some p.2.2⟩ }
    if f.flags &&& flagEndHeaders ≠ 0 then do
      let r ← endBlock r hdrs p.2.2
      .ok (r, p.2.1)
    else .ok (r, p.2.1)
  | _, _ => .error .assert

/-! ## The other frames -/

def parsePrio (r : Rx) (f : Frame) : Res (Rx × Frame) := do
  fatalIf (f.size ≠ 5)
  let n ← vbe32dec f.mem
  let w ← load f.mem 4
  let prio := setPrio r.prio (r.place f) (n % 2 ^ 31 : Nat) w.toNat
  let prio := if n / 2 ^ 31 ≠ 0 then exclusiveStreamDependency prio (r.place f) else prio
  return ({ r with prio := prio }, { f with md := UInt32.ofNat (n % 2 ^ 31) })

def parseRst (r : Rx) (f : Frame) : Res (Rx × Frame) := do
  fatalIf (f.size ≠ 4)
  let err ← vbe32dec f.mem
  return (r, { f with md := UInt32.ofNat err })

/-- The table of the encoder is resized for every `SETTINGS_HEADER_TABLE_SIZE`. -/
def parseSettings (r : Rx) (f : Frame) : Res (Rx × Frame) := do
  fatalIf (f.size % 6 ≠ 0)
  fatalIf (f.stid ≠ 0)
  let sizes := (settingsOf f.data).filter fun p => p.1 = 1
  let enc ← sizes.foldlM (fun ctx p => hpkResizeTbl ctx (UInt32.ofNat p.2)) r.enc
  return ({ r with enc := enc }, f)

def parsePing (r : Rx) (f : Frame) : Res (Rx × Frame) := do
  fatalIf (f.size ≠ 8)
  return (r, f)

def parseGoaway (r : Rx) (f : Frame) : Res (Rx × Frame) := do
  fatalIf (f.size < 8)
  let b ← load f.mem 0
  fatalIf (b &&& 0x80 ≠ 0)
  let err ← vbe32dec (f.mem.drop 4)
  return (r, { f with md := UInt32.ofNat err })

/-- The frames that have nothing to do with header blocks. -/
def handleOther (r : Rx) (s : WinStream) (f : Frame) : Res (Rx × Frame) :=
  if f.type = typeData then do
    let p ← parseData r.win s f
    return ({ r with win := p.1.setStream f.stid p.2 }, f)
  else if f.type = typePriority then parsePrio r f
  else if f.type = typeRstStream then parseRst r f
  else if f.type = typeSettings then parseSettings r f
  else if f.type = typePing then parsePing r f
  else if f.type = typeGoaway then parseGoaway r f
  else if f.type = typeWindowUpdate then do
    let f ← parseWinup r.win.fatal f
    return (r, f)
  else .error .assert

/-! ## The frame -/

/-- `hdrs` of a `HEADERS` frame: the array of an open block, or else the one of the stream. -/
def Rx.headersTarget (r : Rx) (f : Frame) : Nat × HdrSide :=
  r.asm.hdrs.getD (f.stid, if r.server then .req else .resp)

def switchType (r : Rx) (s : WinStream) (f : Frame) : Res (Rx × Frame) :=
  if f.type = typePushPromise then do
    let r ← openBlock r (f.stid, .req)
    addFragment r f
  else if f.type = typeHeaders then do
    let r ← openBlock r (r.headersTarget f)
    addFragment r f
  else if f.type = typeContinuation then addFragment r f
  else handleOther r s f

/-- From where the stream was found to where the frame is queued. -/
def handleFrame (r : Rx) (f : Frame) : Res (Rx × Frame) :=
  match r.win.streams f.stid with
  | none => .error .fuel
  | some s => do
    fatalIf (r.asm.expectCont ≠ 0 &&
      (f.type ≠ typeContinuation || r.asm.expectCont ≠ f.stid))
    switchType r s f

/-- `VTAILQ_INSERT_HEAD(&s->fq, f, list)`; the queues stand oldest first. -/
def Rx.enqueue (r : Rx) (f : Frame) : Res Rx := do
  let s ← r.win.stream f.stid
  return { r with win := r.win.setStream f.stid { s with fq := s.fq ++ [f] } }

def receiveOne (r : Rx) (f : Frame) : Res Rx := do
  let p ← handleFrame r f
  p.1.enqueue p.2

end Http2
end VTest
