import VTest.Lib.Defined
import VTest.Http1.Tx
import VTest.Http2.Window

/-!
# VTest.Http2.Wire

The bytes that the tx commands put on a connection, and how they are cut into frames again.

`txFrames` has the frames of each command, with the sizes as `uint32_t`. `splitFrames` cuts a
string of bytes by the sizes in the frame headers. A frame of 2^24 bytes or more gets a header with
a smaller size, and everything behind it is read at the wrong place: `txreq`, `txresp` and `txdata`
put no limit on their bodies (`frames_parse_back_iff`).
-/

namespace VTest
namespace Http2

/-! ## The commands -/

/-- `-body`, `-bodyfrom` with the content of the file, and `-bodylen`. -/
inductive BodyOpt where
  | body (text : Bytes)
  | bodyfrom (file : Bytes)
  | bodylen (len : Bytes)

def BodyOpt.content : BodyOpt → Res Bytes
  | .body text => .ok text
  | .bodyfrom file => do
    check (file.length < 2 ^ 31 - 1)
    return file
  | .bodylen len => Http1.synthBody len

/-- The commands: `txreq` and `txresp`, `txpush`, `txcont`, `txdata`, `txsettings`, `txwinup`.
`block` is what the calls of `HPK_EncHdr` have written, which find `BUF_SIZE` bytes, or 4 less
behind the promised id. `buf` is the content of the fresh buffer. -/
inductive TxCmd where
  | msg (buf : TxBuf) (prio : Option Prio) (pad : Option Bytes) (hdrEnd strEnd : Bool)
      (block : Bytes) (hb : block.length ≤ bufSize) (body : Option BodyOpt)
  | push (buf : TxBuf) (promised : Nat) (hp : promised < 2 ^ 31) (pad : Option Bytes)
      (hdrEnd : Bool) (block : Bytes) (hb : block.length + 4 ≤ bufSize)
  | cont (buf : TxBuf) (hdrEnd : Bool) (block : Bytes) (hb : block.length ≤ bufSize)
  | txdata (body : Bytes) (pad : Option Bytes) (strEnd : Bool)
  | txsettings (l : List TxSetting) (ack : Bool)
  | txwinup (size : Nat)

/-- The `DATA` frame behind the headers. `f.size` is a `uint32_t`. -/
def bodyFrame (id : Nat) (body : Bytes) : Frame where
  size := body.length % 2 ^ 32
  stid := id
  type := typeData
  flags := flagEndStream
  data := body.take (body.length % 2 ^ 32)

/-- What `txdata` builds for a padded frame: the padding is put where `f.size` points to. -/
def paddedData (body pad : Bytes) : Bytes :=
  put ([UInt8.ofNat pad.length] ++ body ++ pad) ((1 + body.length) % 2 ^ 32) pad

def txdataFrame (id : Nat) (body : Bytes) (pad : Option Bytes) (strEnd : Bool) : Res Frame :=
  match pad with
  | none => .ok { bodyFrame id body with flags := flagIf strEnd flagEndStream }
  | some pad => do
    fatalIf (255 < pad.length)
    let size := (1 + body.length + pad.length) % 2 ^ 32
    return {
      size := size
      stid := id
      type := typeData
      flags := flagIf strEnd flagEndStream ||| flagPadded
      data := (paddedData body pad).take size }

/-- The frames that a command on stream `id` hands to `write_frame`. A body takes `END_STREAM` from
the headers. -/
def txFrames (id : Nat) : TxCmd → Res (List Frame)
  | .msg buf prio pad hdrEnd strEnd block _ none => do
    let f ← tx11Frame buf id hdrEnd strEnd block (.headers prio pad)
    return [f]
  | .msg buf prio pad hdrEnd _ block _ (some opt) => do
    let body ← opt.content
    let f ← tx11Frame buf id hdrEnd false block (.headers prio pad)
    return [f, bodyFrame id body]
  | .push buf promised hp pad hdrEnd block _ => do
    let f ← tx11Frame buf id hdrEnd false block (.push promised hp pad)
    return [f]
  | .cont buf hdrEnd block _ => do
    let f ← tx11Frame buf id hdrEnd false block .cont
    return [f]
  | .txdata body pad strEnd => do
    let f ← txdataFrame id body pad strEnd
    return [f]
  | .txsettings l ack =>
    if 512 < (settingsData l).length then .error .ub
    else .ok [{ settingsFrame l ack with stid := id }]
  | .txwinup size => .ok [winupFrame id size]

/-- The ids of streams; `stream_new` refuses the others. -/
abbrev StreamId := { id : Nat // id < 2 ^ 31 }

def handedFrames : List (StreamId × TxCmd) → Res (List Frame)
  | [] => .ok []
  | c :: l => do
    let fs ← txFrames c.1 c.2
    let gs ← handedFrames l
    return fs ++ gs

/-- The command reports a failure. It then writes nothing. -/
def Refused (c : StreamId × TxCmd) : Prop :=
  txFrames c.1 c.2 = .error .fatal ∨ txFrames c.1 c.2 = .error .assert

/-! ## Cutting the bytes -/

/-- What a frame is made of. -/
def Frame.parts (f : Frame) : UInt8 × UInt8 × Nat × Bytes := (f.type, f.flags, f.stid, f.data)

/-- The frames that a string of bytes consists of. -/
def splitFrames (b : Bytes) : Option (List Frame) :=
  if b = [] then some []
  else
    match readFrameHeader b with
    | .error _ => none
    | .ok f =>
      if (b.drop 9).length < f.size then none
      else
        (splitFrames (b.drop (9 + f.size))).map fun fs =>
          { f with data := (b.drop 9).take f.size } :: fs
termination_by b.length
decreasing_by
  have := List.length_pos_iff.mpr ‹¬b = []›
  simp only [List.length_drop]
  omega

/-- A frame as `write_frame` gets it. -/
structure Frame.Written (f : Frame) : Prop where
  size : f.data.length = f.size
  stid : f.stid < 2 ^ 32

/-- The header of a frame has its size without the upper bits. -/
theorem readFrameHeader_bytes (f : Frame) (rest : Bytes) (hi : f.stid < 2 ^ 32) :
    readFrameHeader (writeFrameHeader f ++ rest) =
      .ok { size := f.size % 2 ^ 24, stid := f.stid, type := f.type, flags := f.flags } := by
  have hsize : (UInt8.ofNat (f.size / 2 ^ 16)).toNat * 2 ^ 16 +
      (UInt8.ofNat (f.size / 2 ^ 8)).toNat * 2 ^ 8 + (UInt8.ofNat f.size).toNat =
        f.size % 2 ^ 24 := by
    simp only [UInt8.toNat_ofNat']
    omega
  simp only [writeFrameHeader, List.cons_append, List.nil_append, readFrameHeader,
    vbe32dec_enc f.stid rest hi, ok_bind, pure_res, hsize]

theorem drop_nine_bytes (f : Frame) (rest : Bytes) :
    (f.bytes ++ rest).drop 9 = f.data ++ rest := by
  rw [Frame.bytes, List.append_assoc, List.drop_left' (length_writeFrameHeader f)]

/-- The first frame is cut off with the size that its header has. -/
theorem splitFrames_bytes {f : Frame} (hf : f.Written) (rest : Bytes) :
    splitFrames (f.bytes ++ rest) =
      (splitFrames ((f.data ++ rest).drop (f.size % 2 ^ 24))).map fun fs =>
        { f with
          size := f.size % 2 ^ 24, data := f.data.take (f.size % 2 ^ 24), md := 0 } :: fs := by
  have hne : f.bytes ++ rest ≠ [] := by simp [Frame.bytes, writeFrameHeader]
  have hread : readFrameHeader (f.bytes ++ rest) =
      .ok { size := f.size % 2 ^ 24, stid := f.stid, type := f.type, flags := f.flags } := by
    rw [Frame.bytes, List.append_assoc]
    exact readFrameHeader_bytes f _ hf.stid
  have hle : f.size % 2 ^ 24 ≤ f.data.length := hf.size ▸ Nat.mod_le ..
  rw [splitFrames, if_neg hne]
  simp only [hread]
  rw [drop_nine_bytes, if_neg (by simp; omega), ← List.drop_drop, drop_nine_bytes,
    List.take_append_of_le_length hle]

/-- A sequence of frames is recovered just if the sizes of all of them fit into their headers. -/
theorem splitFrames_iff {fs : List Frame} (hfs : ∀ f ∈ fs, f.Written) :
    (splitFrames (fs.flatMap Frame.bytes)).map (·.map Frame.parts) = some (fs.map Frame.parts) ↔
      ∀ f ∈ fs, f.size < 2 ^ 24 := by
  induction fs with
  | nil => simp [splitFrames]
  | cons f fs ih =>
    have hf := hfs f List.mem_cons_self
    have ih := ih fun g hg => hfs g (List.mem_cons_of_mem f hg)
    rw [List.flatMap_cons, splitFrames_bytes hf, Option.map_map, List.forall_mem_cons]
    by_cases hs : f.size < 2 ^ 24
    · -- the frame is cut off as it was, and the rest starts at the right place
      rw [Nat.mod_eq_of_lt hs, ← hf.size, List.drop_left, List.take_length, ← ih]
      have hparts : ∀ o : Option (List Frame),
          o.map ((·.map Frame.parts) ∘ fun gs =>
            { f with size := f.data.length, data := f.data, md := 0 } :: gs) =
              (o.map (·.map Frame.parts)).map (f.parts :: ·) := by
        intro o
        rw [Option.map_map]
        rfl
      rw [hparts]
      constructor
      · intro h
        obtain ⟨gs, hgs, he⟩ := Option.map_eq_some_iff.mp h
        rw [List.map_cons, List.cons.injEq] at he
        exact ⟨by rw [hf.size]; exact hs, he.2 ▸ hgs⟩
      · rintro ⟨-, h⟩
        rw [h]
        rfl
    · -- the payload is cut
      refine iff_of_false (fun h => ?_) fun h => hs h.1
      obtain ⟨gs, -, he⟩ := Option.map_eq_some_iff.mp h
      have hd : f.data.take (f.size % 2 ^ 24) = f.data :=
        congrArg (fun p => p.2.2.2) (List.cons.inj he).1
      have hlen := congrArg List.length hd
      rw [List.length_take, hf.size] at hlen
      have := Nat.mod_lt f.size (show 0 < 2 ^ 24 by norm_num)
      omega

/-! ## The frames of the commands -/

theorem bufSize_lt : bufSize < 2 ^ 24 := by
  unfold bufSize
  norm_num

/-- A frame that `cmd_tx11obj` builds in its buffer. -/
structure Frame.Built (id : Nat) (f : Frame) : Prop where
  size : f.data.length = f.size
  fits : f.size ≤ bufSize
  stid : f.stid = id

theorem Frame.Built.written {id : StreamId} {f : Frame} (h : f.Built id) : f.Written :=
  ⟨h.size, by have := id.2; rw [h.stid]; omega⟩

theorem Frame.Built.lt {id : Nat} {f : Frame} (h : f.Built id) : f.size < 2 ^ 24 :=
  Nat.lt_of_le_of_lt h.fits bufSize_lt

/-- What padding adds to the size of a frame. -/
def padSize : Option Bytes → Nat
  | none => 0
  | some pad => 1 + pad.length

theorem addPriority?_defined {buf : Bytes} {size : Nat} (prio : Option Prio)
    (hl : buf.length = bufSize) (hs : size ≤ bufSize) :
    Defined (fun q => q.1.length = bufSize ∧ q.2 ≤ bufSize) (addPriority? buf size prio) := by
  cases prio with
  | none => exact .ok ⟨hl, hs⟩
  | some p =>
    refine .check_bind fun hc => ?_
    have hc := of_decide_eq_true hc
    refine .bind (.poke (by simp; omega)) fun b1 h1 => ?_
    refine .bind (.poke (by simp; omega)) fun b2 h2 => ?_
    refine .bind (.poke (by simp; omega)) fun b3 h3 => .ok ?_
    exact ⟨h3.trans (h2.trans (h1.trans hl)), Nat.le_of_lt hc⟩

theorem addPadding?_defined {buf : Bytes} {size : Nat} (pad : Option Bytes)
    (hl : buf.length = bufSize) (hs : size ≤ bufSize) :
    Defined (fun q => q.1.length = bufSize ∧ q.2 = size + padSize pad ∧ q.2 ≤ bufSize)
      (addPadding? buf size pad) := by
  cases pad with
  | none => exact .ok ⟨hl, rfl, hs⟩
  | some pad =>
    refine .fatalIf_bind fun _ => .check_bind fun hc => ?_
    have hc := of_decide_eq_true hc
    refine .bind (.poke (by simp; omega)) fun b1 h1 => ?_
    refine .bind (.poke (by simp; omega)) fun b2 h2 => ?_
    refine .bind (.poke (by omega)) fun b3 h3 => .ok ?_
    refine ⟨h3.trans (h2.trans (h1.trans hl)), ?_, ?_⟩
    · simp only [padSize]
      omega
    · simp only
      omega

theorem sendBuf_built {buf : Bytes} {size : Nat} (stid : Nat) (type flags : UInt8)
    (hl : buf.length = bufSize) (hs : size ≤ bufSize) :
    Defined (Frame.Built stid) (sendBuf buf size stid type flags) := by
  rw [sendBuf, if_pos (by omega)]
  exact .ok ⟨by simp; omega, hs, rfl⟩

theorem tx11_headers_built (buf : TxBuf) (id : Nat) (hdrEnd strEnd : Bool) {block : Bytes}
    (prio : Option Prio) (pad : Option Bytes) (hb : block.length ≤ bufSize) :
    Defined (Frame.Built id) (tx11Frame buf id hdrEnd strEnd block (.headers prio pad)) := by
  have hbuf := buf.2
  refine .bind (.poke (by omega)) fun b1 h1 => ?_
  refine .bind (addPriority?_defined prio (h1.trans hbuf) hb) fun q hq => ?_
  refine .bind (addPadding?_defined pad hq.1 hq.2) fun r hr => ?_
  exact sendBuf_built id _ _ hr.1 hr.2.2

theorem tx11_cont_built (buf : TxBuf) (id : Nat) (hdrEnd strEnd : Bool) {block : Bytes}
    (hb : block.length ≤ bufSize) :
    Defined (Frame.Built id) (tx11Frame buf id hdrEnd strEnd block .cont) := by
  have hbuf := buf.2
  refine .bind (.poke (by omega)) fun b1 h1 => ?_
  exact sendBuf_built id _ _ (h1.trans hbuf) hb

/-- The buffer of `txpush` before the promised id is counted. -/
theorem tx11_push_eq (buf : TxBuf) (id : Nat) (hdrEnd strEnd : Bool) {block : Bytes}
    {promised : Nat} (hp : promised < 2 ^ 31) (pad : Option Bytes)
    (hb : block.length + 4 ≤ bufSize) :
    ∃ x : Res (Bytes × Nat),
      Defined (fun q => q.1.length = bufSize ∧ q.2 = block.length + padSize pad) x ∧
      tx11Frame buf id hdrEnd strEnd block (.push promised hp pad) = x >>= fun q =>
        sendBuf q.1 (q.2 + 4) id typePushPromise
          (baseFlags hdrEnd strEnd ||| flagIf pad.isSome flagPadded) := by
  have hbuf := buf.2
  refine ⟨(do
    let b ← poke buf.1 4 block
    let b ← poke b 0 (vbe32enc promised)
    addPadding? b block.length pad), ?_, ?_⟩
  · refine .bind (.poke (by omega)) fun b1 h1 => ?_
    refine .bind (.poke (by simp; omega)) fun b2 h2 => ?_
    exact (addPadding?_defined pad (by omega) (by omega)).mono fun q hq => ⟨hq.1, hq.2.1⟩
  · simp only [tx11Frame, bind_assoc]

/-- The promised id is not counted when the padding is checked against the size of the buffer. -/
theorem tx11_push_ok {buf : TxBuf} {id : Nat} {hdrEnd strEnd : Bool} {block : Bytes}
    {promised : Nat} {hp : promised < 2 ^ 31} {pad : Option Bytes}
    (hb : block.length + 4 ≤ bufSize) {f : Frame}
    (h : tx11Frame buf id hdrEnd strEnd block (.push promised hp pad) = .ok f) :
    f.Built id ∧ block.length + padSize pad + 4 ≤ bufSize := by
  obtain ⟨x, hx, he⟩ := tx11_push_eq buf id hdrEnd strEnd hp pad hb
  rw [he] at h
  obtain ⟨q, hq, h⟩ := bind_eq_ok.mp h
  obtain ⟨hl, hs⟩ := hx.of_eq_ok hq
  by_cases hle : q.2 + 4 ≤ bufSize
  · exact ⟨(sendBuf_built id _ _ hl hle).of_eq_ok h, by omega⟩
  · rw [sendBuf, if_neg (by omega)] at h
    cases h

theorem tx11_push_built (buf : TxBuf) (id : Nat) (hdrEnd strEnd : Bool) {block : Bytes}
    {promised : Nat} (hp : promised < 2 ^ 31) (pad : Option Bytes)
    (hb : block.length + 4 ≤ bufSize) (hs : block.length + padSize pad + 4 ≤ bufSize) :
    Defined (Frame.Built id) (tx11Frame buf id hdrEnd strEnd block (.push promised hp pad)) := by
  obtain ⟨x, hx, he⟩ := tx11_push_eq buf id hdrEnd strEnd hp pad hb
  rw [he]
  refine .bind hx fun q hq => ?_
  exact sendBuf_built id _ _ hq.1 (by omega)

theorem bodyFrame_written (id : StreamId) (body : Bytes) : (bodyFrame id body).Written :=
  ⟨by simp [bodyFrame, Nat.mod_le], by have := id.2; simp only [bodyFrame]; omega⟩

/-- The padding stays within the payload, wherever it is put. -/
theorem length_paddedData (body pad : Bytes) :
    (paddedData body pad).length = 1 + body.length + pad.length := by
  have := Nat.mod_le (1 + body.length) (2 ^ 32)
  rw [paddedData, length_put (by simp; omega)]
  simp
  omega

/-- The size of a `DATA` frame. -/
def dataSize (body : Bytes) (pad : Option Bytes) : Nat := (body.length + padSize pad) % 2 ^ 32

theorem txdataFrame_defined (id : StreamId) (body : Bytes) (pad : Option Bytes) (strEnd : Bool) :
    Defined (fun f => f.Written ∧ f.size = dataSize body pad)
      (txdataFrame id body pad strEnd) := by
  have hid := id.2
  cases pad with
  | none =>
    have hw := bodyFrame_written id body
    exact .ok ⟨⟨hw.size, hw.stid⟩, rfl⟩
  | some pad =>
    refine .fatalIf_bind fun _ => .ok ⟨⟨?_, ?_⟩, ?_⟩
    · simp [length_paddedData, Nat.mod_le]
    · simp only
      omega
    · simp only [dataSize, padSize]
      omega

/-- Up to 2^32 bytes it is the frame of `dataFrame`. -/
theorem txdataFrame_eq (id : Nat) {body : Bytes} {pad : Option Bytes} (strEnd : Bool)
    (h : body.length + padSize pad < 2 ^ 32) :
    txdataFrame id body pad strEnd = dataFrame id body pad strEnd := by
  cases pad with
  | none =>
    have h0 : body.length % 2 ^ 32 = body.length := Nat.mod_eq_of_lt h
    simp only [txdataFrame, dataFrame, bodyFrame, h0, List.take_length]
  | some pad =>
    simp only [padSize] at h
    have h1 : (1 + body.length + pad.length) % 2 ^ 32 = 1 + body.length + pad.length :=
      Nat.mod_eq_of_lt (by omega)
    have h2 : paddedData body pad = [UInt8.ofNat pad.length] ++ body ++ pad := by
      rw [paddedData, Nat.mod_eq_of_lt (by omega), Nat.add_comm]
      have := put_append (a := [UInt8.ofNat pad.length] ++ body) (b := pad) (r := []) rfl
      simpa using this
    simp only [txdataFrame, dataFrame, h1]
    rw [List.take_of_length_le (by rw [length_paddedData]), h2]

/-! ## What fits -/

theorem content_defined (opt : BodyOpt) : Defined (fun _ => True) opt.content := by
  cases opt with
  | body => exact .ok trivial
  | bodyfrom => exact .check_bind fun _ => .ok trivial
  | bodylen =>
    exact .bind (P := fun _ => True) (.check_bind fun _ => .ok trivial) fun _ _ => .ok trivial

/-- The frames of the command fit into their headers: the body of a message and the payload of a
`DATA` frame have less than 2^24 bytes (counted in a `uint32_t`), the settings fit on the stack,
and a padded `PUSH_PROMISE` fits into the buffer with its promised id. -/
def TxCmd.Fits : TxCmd → Prop
  | .msg _ _ _ _ _ _ _ body =>
    ∀ opt b, body = some opt → opt.content = .ok b → b.length % 2 ^ 32 < 2 ^ 24
  | .push _ _ _ pad _ block _ => block.length + padSize pad + 4 ≤ bufSize
  | .cont .. => True
  | .txdata body pad _ => dataSize body pad < 2 ^ 24
  | .txsettings l _ => 6 * l.length ≤ 512
  | .txwinup _ => True

theorem length_settingsData (l : List TxSetting) : (settingsData l).length = 6 * l.length := by
  induction l with
  | nil => rfl
  | cons o l ih =>
    rw [settingsData, List.flatMap_cons, List.length_append]
    have : (l.flatMap fun o => vbe16enc o.pair.1 ++ vbe32enc o.pair.2).length = 6 * l.length := ih
    rw [this]
    simp
    omega

theorem forall_singleton_lt {f : Frame} :
    (∀ g ∈ [f], g.size < 2 ^ 24) ↔ f.size < 2 ^ 24 := by
  simp

theorem forall_singleton_written {f : Frame} (h : f.Written) : ∀ g ∈ [f], g.Written := by
  simpa using h

/-- The frames of a command have sizes below 2^24 just if the command fits. -/
theorem txFrames_ok {id : StreamId} {c : TxCmd} {fs : List Frame}
    (h : txFrames id c = .ok fs) :
    (∀ f ∈ fs, f.Written) ∧ ((∀ f ∈ fs, f.size < 2 ^ 24) ↔ c.Fits) := by
  have hid := id.2
  cases c with
  | msg buf prio pad hdrEnd strEnd block hb body =>
    cases body with
    | none =>
      obtain ⟨f, hf, h⟩ := bind_eq_ok.mp h
      cases h
      have hB := (tx11_headers_built buf id hdrEnd strEnd prio pad hb).of_eq_ok hf
      exact ⟨forall_singleton_written hB.written,
        iff_of_true (forall_singleton_lt.mpr hB.lt) (by simp [TxCmd.Fits])⟩
    | some opt =>
      obtain ⟨b, hb', h⟩ := bind_eq_ok.mp h
      obtain ⟨f, hf, h⟩ := bind_eq_ok.mp h
      cases h
      have hB := (tx11_headers_built buf id hdrEnd false prio pad hb).of_eq_ok hf
      refine ⟨by simpa using ⟨hB.written, bodyFrame_written id b⟩, fun hlt opt' b' ho hc => ?_,
        fun hfits g hg => ?_⟩
      · cases ho
        cases hb'.symm.trans hc
        exact hlt (bodyFrame id b) (by simp)
      · rcases List.mem_pair.mp hg with rfl | rfl
        · exact hB.lt
        · exact hfits opt b rfl hb'
  | push buf promised hp pad hdrEnd block hb =>
    obtain ⟨f, hf, h⟩ := bind_eq_ok.mp h
    cases h
    obtain ⟨hB, hs⟩ := tx11_push_ok hb hf
    exact ⟨forall_singleton_written hB.written,
      iff_of_true (forall_singleton_lt.mpr hB.lt) hs⟩
  | cont buf hdrEnd block hb =>
    obtain ⟨f, hf, h⟩ := bind_eq_ok.mp h
    cases h
    have hB := (tx11_cont_built buf id hdrEnd false hb).of_eq_ok hf
    exact ⟨forall_singleton_written hB.written,
      iff_of_true (forall_singleton_lt.mpr hB.lt) trivial⟩
  | txdata body pad strEnd =>
    obtain ⟨f, hf, h⟩ := bind_eq_ok.mp h
    cases h
    obtain ⟨hw, hs⟩ := (txdataFrame_defined id body pad strEnd).of_eq_ok hf
    exact ⟨forall_singleton_written hw, by rw [forall_singleton_lt, hs]; rfl⟩
  | txsettings l ack =>
    simp only [txFrames] at h
    split at h
    · cases h
    · rename_i hle
      cases h
      rw [length_settingsData] at hle
      refine ⟨forall_singleton_written ⟨rfl, by simp only; omega⟩, iff_of_true ?_ ?_⟩
      · rw [forall_singleton_lt]
        simp only [settingsFrame, length_settingsData]
        omega
      · exact Nat.le_of_not_lt hle
  | txwinup size =>
    cases h
    refine ⟨forall_singleton_written ⟨rfl, by simp only [winupFrame]; omega⟩,
      iff_of_true ?_ trivial⟩
    rw [forall_singleton_lt]
    simp [winupFrame]

/-- A command that fits has no undefined behaviour. -/
theorem txFrames_defined (id : StreamId) {c : TxCmd} (h : c.Fits) :
    Defined (fun _ => True) (txFrames id c) := by
  cases c with
  | msg buf prio pad hdrEnd strEnd block hb body =>
    cases body with
    | none =>
      exact .bind (tx11_headers_built buf id hdrEnd strEnd prio pad hb) fun _ _ => .ok trivial
    | some opt =>
      refine .bind (content_defined opt) fun b _ => ?_
      exact .bind (tx11_headers_built buf id hdrEnd false prio pad hb) fun _ _ => .ok trivial
  | push buf promised hp pad hdrEnd block hb =>
    exact .bind (tx11_push_built buf id hdrEnd false hp pad hb h) fun _ _ => .ok trivial
  | cont buf hdrEnd block hb =>
    exact .bind (tx11_cont_built buf id hdrEnd false hb) fun _ _ => .ok trivial
  | txdata body pad strEnd =>
    exact .bind (txdataFrame_defined id body pad strEnd) fun _ _ => .ok trivial
  | txsettings l ack =>
    rw [txFrames, if_neg (by rw [length_settingsData]; exact Nat.not_lt.mpr h)]
    exact .ok trivial
  | txwinup size => exact .ok trivial

/-! ## Sequences of commands -/

theorem handedFrames_ok (l : List (StreamId × TxCmd)) : ∀ {fs : List Frame},
    handedFrames l = .ok fs →
    (∀ f ∈ fs, f.Written) ∧ ((∀ f ∈ fs, f.size < 2 ^ 24) ↔ ∀ c ∈ l, c.2.Fits) := by
  induction l with
  | nil =>
    intro fs h
    cases h
    simp
  | cons c l ih =>
    intro fs h
    obtain ⟨gs, hg, h⟩ := bind_eq_ok.mp h
    obtain ⟨hs, hh, h⟩ := bind_eq_ok.mp h
    cases h
    obtain ⟨hw, hfit⟩ := txFrames_ok hg
    obtain ⟨hw', hfit'⟩ := ih hh
    refine ⟨fun f hf => (List.mem_append.mp hf).elim (hw f) (hw' f), ?_⟩
    rw [List.forall_mem_append, List.forall_mem_cons, hfit, hfit']

theorem handedFrames_of_fits (l : List (StreamId × TxCmd)) (hr : ∀ c ∈ l, ¬Refused c)
    (h : ∀ c ∈ l, c.2.Fits) : ∃ fs, handedFrames l = .ok fs := by
  induction l with
  | nil => exact ⟨[], rfl⟩
  | cons c l ih =>
    obtain ⟨gs, hg⟩ := ih (fun d hd => hr d (List.mem_cons_of_mem c hd))
      fun d hd => h d (List.mem_cons_of_mem c hd)
    have hdef := txFrames_defined c.1 (h c List.mem_cons_self)
    have hc : ¬Refused c := hr c List.mem_cons_self
    unfold Refused at hc
    generalize hx : txFrames c.1 c.2 = x at hdef hc
    cases hdef with
    | fatal => exact absurd (.inl rfl) hc
    | assert => exact absurd (.inr rfl) hc
    | @ok fs _ => exact ⟨fs ++ gs, by rw [handedFrames, hx, ok_bind, hg]; rfl⟩

/-- For commands that report no failure: the frames that they hand to `write_frame` are recovered
from the bytes just if every command fits. -/
theorem frames_parse_back_iff (l : List (StreamId × TxCmd)) (hr : ∀ c ∈ l, ¬Refused c) :
    (∃ fs, handedFrames l = .ok fs ∧
      (splitFrames (fs.flatMap Frame.bytes)).map (·.map Frame.parts) =
        some (fs.map Frame.parts)) ↔ ∀ c ∈ l, c.2.Fits := by
  constructor
  · rintro ⟨fs, hfs, hsplit⟩
    obtain ⟨hw, hfit⟩ := handedFrames_ok l hfs
    exact hfit.mp ((splitFrames_iff hw).mp hsplit)
  · intro hfits
    obtain ⟨fs, hfs⟩ := handedFrames_of_fits l hr hfits
    obtain ⟨hw, hfit⟩ := handedFrames_ok l hfs
    exact ⟨fs, hfs, (splitFrames_iff hw).mpr (hfit.mpr hfits)⟩

/-- A `DATA` frame and a `WINDOW_UPDATE` frame. -/
theorem frames_parse_back_two : ∃ fs,
    handedFrames [(⟨1, by norm_num⟩, .txdata [104, 105] none true),
      (⟨0, by norm_num⟩, .txwinup 7)] = .ok fs ∧
      (splitFrames (fs.flatMap Frame.bytes)).map (·.map Frame.parts) =
        some (fs.map Frame.parts) := by
  refine (frames_parse_back_iff _ ?_).mpr ?_
  · simp [Refused, txFrames, txdataFrame]
  · simp [TxCmd.Fits, dataSize, padSize]

/-- 2^24 bytes of data are sent with a header that says 0. -/
theorem large_data_misread : ∃ body f,
    body.length = 2 ^ 24 ∧
      handedFrames [(⟨1, by norm_num⟩, .txdata body none true)] = .ok [f] ∧ f.data = body ∧
      (splitFrames f.bytes).map (·.map Frame.parts) ≠ some [f.parts] := by
  obtain ⟨body, hbody⟩ : ∃ body : Bytes, body.length = 2 ^ 24 :=
    ⟨List.replicate (2 ^ 24) 0, List.length_replicate⟩
  have hmod : body.length % 2 ^ 32 = 2 ^ 24 := by omega
  refine ⟨body, { bodyFrame 1 body with flags := flagIf true flagEndStream }, hbody, rfl, ?_, ?_⟩
  · show body.take (body.length % 2 ^ 32) = body
    rw [hmod, ← hbody, List.take_length]
  · intro h
    have hw := bodyFrame_written ⟨1, by norm_num⟩ body
    have hlt := (splitFrames_iff (forall_singleton_written ⟨hw.size, hw.stid⟩)).mp
      (by rwa [List.flatMap_singleton])
    have : body.length % 2 ^ 32 < 2 ^ 24 := forall_singleton_lt.mp hlt
    omega

end Http2
end VTest
