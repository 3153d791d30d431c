import VTest.Http2.Frame

/-!
# VTest.Http2.HdrFrame

The payload of the frames that carry headers: how `cmd_tx11obj` builds it around the header block,
and how `parse_hdr` takes it apart.

A plain `char` is signed, as on x86-64, and numbers are little-endian in memory, so that
`md.padded` is the low byte of `md.promised`.

* `addPriority_append`, `addPadding_append`: what the two `memmove` steps of the sender build.
* `hdrFields_prio`, `hdrFields_push`, `hdrFields_off`: what the receiver reads.
* `survives_of_sound`, `not_survives_padded_prio`, `not_survives_padded_push`: which combinations
  of options survive.
-/

namespace VTest
namespace Http2

/-! ## Streams -/

/-- What a stream knows about its priority. -/
structure PrioStream where
  id : Nat
  dependency : Int
  weight : Int
  deriving DecidableEq, Repr

def setPrio (streams : List PrioStream) (k : Nat) (dependency weight : Int) : List PrioStream :=
  streams.modify k fun s => { s with dependency := dependency, weight := weight }

def exclusiveStreamDependency (streams : List PrioStream) (k : Nat) : List PrioStream :=
  match streams[k]? with
  | none => streams
  | some s =>
    if s.id = 0 then streams
    else streams.map fun target =>
      if target.id ≠ s.id ∧ target.dependency = s.dependency then
        { target with dependency := s.id }
      else target

/-! ## The sender -/

@[irreducible] def bufSize : Nat := 1024 * 2048

theorem lt_bufSize : 1024 < bufSize := by
  unfold bufSize
  decide

/-- `-dep`, `-ex` and `-weight`: one of them is enough to send all three. -/
structure Prio where
  dep : Nat := 0
  exclusive : Bool := false
  weight : Nat := 16
  dep_lt : dep < 2 ^ 31 := by decide
  weight_lt : weight < 2 ^ 8 := by decide

/-- The dependency with the exclusive bit on top. -/
def Prio.stid (p : Prio) : Nat := p.dep ||| (if p.exclusive then 2 ^ 31 else 0)

/-- The options of the commands that send headers, as far as they reach the payload: `txreq` and
`txresp`, `txpush`, `txcont`. -/
inductive Tx11 where
  | headers (prio : Option Prio) (pad : Option Bytes)
  | push (promised : Nat) (h : promised < 2 ^ 31) (pad : Option Bytes)
  | cont

def addPriority (buf : Bytes) (size : Nat) (p : Prio) : Res (Bytes × Nat) := do
  check (size + 5 < bufSize)
  let buf ← poke buf 5 (buf.take size)
  let buf ← poke buf 0 (vbe32enc p.stid)
  let buf ← poke buf 4 [UInt8.ofNat p.weight]
  return (buf, size + 5)

def addPadding (buf : Bytes) (size : Nat) (pad : Bytes) : Res (Bytes × Nat) := do
  fatalIf (255 < pad.length)
  check (size + pad.length < bufSize)
  let buf ← poke buf 1 (buf.take size)
  let buf ← poke buf 0 [UInt8.ofNat pad.length]
  let buf ← poke buf (size + 1) pad
  return (buf, size + 1 + pad.length)

def addPriority? (buf : Bytes) (size : Nat) : Option Prio → Res (Bytes × Nat)
  | none => .ok (buf, size)
  | some p => addPriority buf size p

def addPadding? (buf : Bytes) (size : Nat) : Option Bytes → Res (Bytes × Nat)
  | none => .ok (buf, size)
  | some pad => addPadding buf size pad

/-- `write` reads `size` bytes of the buffer. -/
def sendBuf (buf : Bytes) (size : Nat) (stid : Nat) (type flags : UInt8) : Res Frame :=
  if size ≤ buf.length then
    .ok { size := size, stid := stid, type := type, flags := flags, data := buf.take size }
  else .error .ub

def flagIf (c : Bool) (flag : UInt8) : UInt8 := if c then flag else 0

/-- What `malloc(BUF_SIZE)` returns: `bufSize` bytes with any content. -/
abbrev TxBuf := { b : Bytes // b.length = bufSize }

/-- The flags that `-nohdrend` and `-nostrend` control. -/
def baseFlags (hdrEnd strEnd : Bool) : UInt8 :=
  flagIf hdrEnd flagEndHeaders ||| flagIf strEnd flagEndStream

/-- The second half of `cmd_tx11obj`: from the header block, which the `HPK_EncHdr` calls have
written into the buffer, to the frame. -/
def tx11Frame (buf : TxBuf) (stid : Nat) (hdrEnd strEnd : Bool) (block : Bytes) :
    Tx11 → Res Frame
  | .headers prio pad => do
    let buf ← poke buf.1 0 block
    let (buf, size) ← addPriority? buf block.length prio
    let (buf, size) ← addPadding? buf size pad
    sendBuf buf size stid typeHeaders
      (baseFlags hdrEnd strEnd ||| flagIf prio.isSome flagPriority ||| flagIf pad.isSome flagPadded)
  | .push promised _ pad => do
    let buf ← poke buf.1 4 block
    let buf ← poke buf 0 (vbe32enc promised)
    let (buf, size) ← addPadding? buf block.length pad
    sendBuf buf (size + 4) stid typePushPromise
      (baseFlags hdrEnd strEnd ||| flagIf pad.isSome flagPadded)
  | .cont => do
    let buf ← poke buf.1 0 block
    sendBuf buf block.length stid typeContinuation (baseFlags hdrEnd strEnd)

/-- What the command does to the priorities of the sender's own streams. -/
def tx11Streams (streams : List PrioStream) (k : Nat) : Tx11 → List PrioStream
  | .headers (some p) _ =>
    let streams := setPrio streams k p.dep p.weight
    if p.exclusive then exclusiveStreamDependency streams k else streams
  | _ => streams

/-! ## The receiver -/

/-- `f->data`: `f->size` bytes and a NUL, or a null pointer for an empty frame. -/
def Frame.mem (f : Frame) : Bytes := if f.size = 0 then [] else f.data ++ [0]

def Frame.padded (f : Frame) : UInt8 := f.md.toUInt8

def Frame.setPadded (f : Frame) (b : UInt8) : Frame :=
  { f with md := (f.md &&& 0xffffff00) ||| b.toUInt32 }

def Frame.promised (f : Frame) : Nat := f.md.toNat

/-- An `int` from a plain `char`. -/
def charToInt (b : UInt8) : Int := if b < 128 then b.toNat else (b.toNat : Int) - 256

/-- `*p` for the byte at offset `i`. -/
def load (m : Bytes) (i : Nat) : Res UInt8 :=
  match m[i]? with
  | some b => .ok b
  | none => .error .ub

/-- The padding branch: returns `size`, `shift` and the frame. In fatal mode the log entry ends the
test. -/
def hdrPadding (fatal : Bool) (f : Frame) : Res (Nat × Nat × Frame) :=
  if f.flags &&& flagPadded ≠ 0 ∧ f.type ≠ typeContinuation then do
    let b ← load f.mem 0
    if f.size ≤ b.toNat then
      if fatal then .error .fatal else .ok (0, 1, f.setPadded 0)
    else .ok (f.size - b.toNat, 1, f.setPadded b)
  else .ok (f.size, 0, f)

/-- The priority and the promised id: returns `shift`, the streams and the frame. -/
def hdrFields (streams : List PrioStream) (k : Nat) (f : Frame) (shift : Nat) :
    Res (Nat × List PrioStream × Frame) :=
  if f.type = typeHeaders ∧ f.flags &&& flagPriority ≠ 0 then do
    let n ← vbe32dec f.mem
    let w ← load f.mem 4
    let streams := setPrio streams k (n % 2 ^ 31 : Nat) (charToInt w)
    let streams := if n / 2 ^ 31 ≠ 0 then exclusiveStreamDependency streams k else streams
    return (shift + 5, streams, f)
  else if f.type = typePushPromise then do
    let n ← vbe32dec f.mem
    return (shift + 4, streams, { f with md := UInt32.ofNat (n % 2 ^ 31) })
  else .ok (shift, streams, f)

/-- `VSB_bcat(vsb, data + shift, size - shift)`. A size below the shift wraps. -/
def hdrAppend (f : Frame) (vsb : Bytes) (size shift : Nat) : Res Bytes :=
  if size < shift ∨ f.data.length < size then .error .ub
  else .ok (vsb ++ (f.data.drop shift).take (size - shift))

def parseHdr (fatal : Bool) (streams : List PrioStream) (k : Nat) (f : Frame) (vsb : Bytes) :
    Res (List PrioStream × Frame × Bytes) := do
  let (size, shift, f) ← hdrPadding fatal f
  let (shift, streams, f) ← hdrFields streams k f shift
  let vsb ← hdrAppend f vsb size shift
  return (streams, f, vsb)

/-! ## What is sent -/

/-- `memmove(buf + k, buf, |body|)`. -/
theorem poke_move (body rest : Bytes) {k : Nat} (h : k ≤ rest.length) :
    poke (body ++ rest) k ((body ++ rest).take body.length) =
      .ok ((body ++ rest).take k ++ (body ++ rest.drop k)) := by
  rw [List.take_left, poke, if_pos (by simp; omega), put, List.append_assoc]
  congr 3
  rw [List.drop_append, List.drop_eq_nil_of_le (by omega), List.nil_append]
  congr 1
  omega

theorem addPriority_append (body rest : Bytes) (p : Prio) (hr : 5 ≤ rest.length)
    (hs : body.length + 5 < bufSize) :
    addPriority (body ++ rest) body.length p =
      .ok (vbe32enc p.stid ++ [UInt8.ofNat p.weight] ++ body ++ rest.drop 5, body.length + 5) := by
  have hlen : ((body ++ rest).take 5).length = 5 := by simp; omega
  simp only [addPriority, hs, decide_true, check_true, ok_bind, poke_move body rest hr]
  match (body ++ rest).take 5, hlen with
  | [_, _, _, _, _], _ => simp [poke, put, vbe32enc]

theorem addPadding_append (body : Bytes) {old pad : Bytes} (x : UInt8) (tail : Bytes)
    (hp : pad.length ≤ 255) (ho : old.length = pad.length)
    (hs : body.length + pad.length < bufSize) :
    addPadding (body ++ x :: (old ++ tail)) body.length pad =
      .ok (UInt8.ofNat pad.length :: (body ++ pad ++ tail), body.length + 1 + pad.length) := by
  have hmove := poke_move body (x :: (old ++ tail)) (k := 1) (by simp)
  have hlen : ((body ++ x :: (old ++ tail)).take 1).length = 1 := by simp; omega
  have hp' : ¬ 255 < pad.length := by omega
  have hput : poke (UInt8.ofNat pad.length :: (body ++ (old ++ tail))) (body.length + 1) pad =
      .ok (UInt8.ofNat pad.length :: (body ++ pad ++ tail)) := by
    have := poke_append (a := UInt8.ofNat pad.length :: body) (r := tail) ho
    simpa using this
  simp only [addPadding, hp', decide_false, fatalIf_false, hs, decide_true, check_true, hmove,
    ok_bind, List.drop_succ_cons, List.drop_zero]
  match (body ++ x :: (old ++ tail)).take 1, hlen with
  | [y], _ =>
    have h0 : poke ([y] ++ (body ++ (old ++ tail))) 0 [UInt8.ofNat pad.length] =
        .ok (UInt8.ofNat pad.length :: (body ++ (old ++ tail))) := by
      simp [poke, put]
    rw [h0, ok_bind, hput]
    rfl

/-- The priority fields in front of the header block. -/
def prioBytes : Option Prio → Bytes
  | none => []
  | some p => vbe32enc p.stid ++ [UInt8.ofNat p.weight]

/-- The pad length in front of everything. -/
def padLead : Option Bytes → Bytes
  | none => []
  | some pad => [UInt8.ofNat pad.length]

def padBytes : Option Bytes → Bytes
  | none => []
  | some pad => pad

theorem addPriority?_spec {body rest buf : Bytes} {size : Nat} {prio : Option Prio}
    (hl : (body ++ rest).length = bufSize)
    (h : addPriority? (body ++ rest) body.length prio = .ok (buf, size)) :
    ∃ rest', buf = (prioBytes prio ++ body) ++ rest' ∧ size = (prioBytes prio ++ body).length ∧
      buf.length = bufSize := by
  cases prio with
  | none =>
    cases h
    exact ⟨rest, rfl, rfl, hl⟩
  | some p =>
    have hs : body.length + 5 < bufSize := by
      unfold addPriority? addPriority at h
      simpa using (check_bind_eq_ok.mp h).1
    rw [List.length_append] at hl
    rw [addPriority?, addPriority_append body rest p (by omega) hs] at h
    cases h
    refine ⟨rest.drop 5, rfl, ?_, ?_⟩
    · simp [prioBytes]; omega
    · simp; omega

/-- Room for the pad length and the padding. -/
theorem exists_room {rest : Bytes} {n : Nat} (h : 1 + n ≤ rest.length) :
    ∃ x old tail, rest = x :: (old ++ tail) ∧ old.length = n := by
  cases rest with
  | nil => simp at h
  | cons x r =>
    refine ⟨x, r.take n, r.drop n, by simp, ?_⟩
    simp at h ⊢
    omega

theorem addPadding?_spec {body rest buf : Bytes} {size : Nat} {pad : Option Bytes}
    (hl : (body ++ rest).length = bufSize)
    (h : addPadding? (body ++ rest) body.length pad = .ok (buf, size)) :
    (∀ b, pad = some b → b.length ≤ 255) ∧
    ∃ rest', buf = (padLead pad ++ body ++ padBytes pad) ++ rest' ∧
      size = (padLead pad ++ body ++ padBytes pad).length := by
  cases pad with
  | none =>
    cases h
    refine ⟨(fun b hb => by cases hb), rest, ?_, ?_⟩
    · simp [padLead, padBytes]
    · simp [padLead, padBytes]
  | some pad =>
    have hb : pad.length ≤ 255 ∧ body.length + pad.length < bufSize := by
      unfold addPadding? addPadding at h
      obtain ⟨hp, h⟩ := fatalIf_bind_eq_ok.mp h
      obtain ⟨hs, _⟩ := check_bind_eq_ok.mp h
      exact ⟨by simpa using hp, by simpa using hs⟩
    rw [List.length_append] at hl
    obtain ⟨x, old, tail, rfl, ho⟩ := exists_room (show 1 + pad.length ≤ rest.length by omega)
    rw [addPadding?, addPadding_append body x tail hb.1 ho hb.2] at h
    cases h
    refine ⟨(fun b hb' => by cases hb'; exact hb.1), tail, ?_, ?_⟩
    · simp [padLead, padBytes]
    · simp [padLead, padBytes]; omega

theorem poke_zero {m b : Bytes} (h : b.length ≤ m.length) :
    poke m 0 b = .ok (b ++ m.drop b.length) := by
  simp [poke, put, h]

theorem poke_ok {m b m' : Bytes} {off : Nat} (h : poke m off b = .ok m') :
    off + b.length ≤ m.length ∧ m' = put m off b := by
  unfold poke at h
  split at h
  · rename_i hle
    cases h
    exact ⟨hle, rfl⟩
  · cases h

theorem sendBuf_ok {body rest : Bytes} {stid : Nat} {type flags : UInt8} {f : Frame}
    (h : sendBuf (body ++ rest) body.length stid type flags = .ok f) :
    f = { size := body.length, stid := stid, type := type, flags := flags, data := body } := by
  unfold sendBuf at h
  rw [if_pos (by simp), List.take_left] at h
  cases h
  rfl

/-- The frame `txreq` and `txresp` send. -/
theorem tx11Frame_headers {blk : TxBuf} {stid : Nat} {hdrEnd strEnd : Bool} {block : Bytes}
    {prio : Option Prio} {pad : Option Bytes} {f : Frame}
    (h : tx11Frame blk stid hdrEnd strEnd block (.headers prio pad) = .ok f) :
    (∀ b, pad = some b → b.length ≤ 255) ∧
    f = { size := (padLead pad ++ (prioBytes prio ++ block) ++ padBytes pad).length
          stid := stid
          type := typeHeaders
          flags := baseFlags hdrEnd strEnd ||| flagIf prio.isSome flagPriority |||
            flagIf pad.isSome flagPadded
          data := padLead pad ++ (prioBytes prio ++ block) ++ padBytes pad } := by
  unfold tx11Frame at h
  obtain ⟨buf, h0, h⟩ := bind_eq_ok.mp h
  obtain ⟨hle, _⟩ := poke_ok h0
  rw [Nat.zero_add] at hle
  rw [poke_zero hle] at h0
  cases h0
  obtain ⟨⟨buf1, size1⟩, h1, h⟩ := bind_eq_ok.mp h
  obtain ⟨rest1, rfl, rfl, hl1⟩ := addPriority?_spec (by simp at hle ⊢; omega) h1
  obtain ⟨⟨buf2, size2⟩, h2, h⟩ := bind_eq_ok.mp h
  obtain ⟨hpad, rest2, rfl, rfl⟩ := addPadding?_spec hl1 h2
  exact ⟨hpad, sendBuf_ok h⟩

/-- The frame `txpush` sends without padding. -/
theorem tx11Frame_push {blk : TxBuf} {stid : Nat} {hdrEnd strEnd : Bool} {block : Bytes}
    {promised : Nat} {hlt : promised < 2 ^ 31} {f : Frame}
    (h : tx11Frame blk stid hdrEnd strEnd block (.push promised hlt none) = .ok f) :
    f = { size := (vbe32enc promised ++ block).length
          stid := stid
          type := typePushPromise
          flags := baseFlags hdrEnd strEnd
          data := vbe32enc promised ++ block } := by
  unfold tx11Frame at h
  obtain ⟨buf, h0, h⟩ := bind_eq_ok.mp h
  obtain ⟨hle, rfl⟩ := poke_ok h0
  have hfresh : (blk.1.take 4).length = 4 := by
    simp at hle ⊢
    omega
  have h1 : poke (put blk.1 4 block) 0 (vbe32enc promised) =
      .ok ((vbe32enc promised ++ block) ++ blk.1.drop (4 + block.length)) := by
    unfold put
    generalize blk.1.take 4 = hd at hfresh
    match hd, hfresh with
    | [_, _, _, _], _ => simp [poke, put, vbe32enc]
  rw [h1, ok_bind] at h
  simp only [addPadding?, ok_bind, Option.isSome_none, flagIf, Bool.false_eq_true, if_false,
    UInt8.or_zero] at h
  have hsize : block.length + 4 = (vbe32enc promised ++ block).length := by
    simp; omega
  rw [hsize] at h
  exact sendBuf_ok h

theorem tx11Frame_cont {blk : TxBuf} {stid : Nat} {hdrEnd strEnd : Bool} {block : Bytes}
    {f : Frame} (h : tx11Frame blk stid hdrEnd strEnd block .cont = .ok f) :
    f = { size := block.length
          stid := stid
          type := typeContinuation
          flags := baseFlags hdrEnd strEnd
          data := block } := by
  unfold tx11Frame at h
  obtain ⟨buf, h0, h⟩ := bind_eq_ok.mp h
  obtain ⟨hle, _⟩ := poke_ok h0
  rw [Nat.zero_add] at hle
  rw [poke_zero hle] at h0
  cases h0
  exact sendBuf_ok h

/-! ## What is received -/

theorem flags_padded (hdrEnd strEnd prio pad : Bool) :
    (baseFlags hdrEnd strEnd ||| flagIf prio flagPriority ||| flagIf pad flagPadded) &&&
      flagPadded ≠ 0 ↔ pad = true := by
  cases hdrEnd <;> cases strEnd <;> cases prio <;> cases pad <;> decide

theorem flags_priority (hdrEnd strEnd prio pad : Bool) :
    (baseFlags hdrEnd strEnd ||| flagIf prio flagPriority ||| flagIf pad flagPadded) &&&
      flagPriority ≠ 0 ↔ prio = true := by
  cases hdrEnd <;> cases strEnd <;> cases prio <;> cases pad <;> decide

theorem baseFlags_padded (hdrEnd strEnd : Bool) :
    baseFlags hdrEnd strEnd &&& flagPadded = 0 := by
  cases hdrEnd <;> cases strEnd <;> decide

theorem Prio.stid_eq (p : Prio) : p.stid = p.dep + if p.exclusive then 2 ^ 31 else 0 := by
  unfold Prio.stid
  split
  · have := Nat.two_pow_add_eq_or_of_lt p.dep_lt 1
    rw [Nat.mul_one] at this
    rw [Nat.or_comm, ← this, Nat.add_comm]
  · rw [Nat.or_zero, Nat.add_zero]

theorem Prio.stid_mod (p : Prio) : p.stid % 2 ^ 31 = p.dep := by
  have := p.dep_lt
  rw [p.stid_eq]
  split <;> omega

theorem Prio.stid_div (p : Prio) : p.stid / 2 ^ 31 ≠ 0 ↔ p.exclusive = true := by
  have := p.dep_lt
  rw [p.stid_eq]
  cases p.exclusive with
  | true => simp
  | false => simp; omega

theorem Prio.stid_lt (p : Prio) : p.stid < 2 ^ 32 := by
  have := p.dep_lt
  rw [p.stid_eq]
  split <;> omega

theorem charToInt_ofNat {w : Nat} (h : w < 2 ^ 8) :
    charToInt (UInt8.ofNat w) = if w < 128 then (w : Int) else (w : Int) - 256 := by
  have hw : (UInt8.ofNat w).toNat = w := by
    rw [UInt8.toNat_ofNat']
    exact Nat.mod_eq_of_lt h
  simp only [charToInt, UInt8.lt_iff_toNat_lt, hw]
  rfl

@[simp] theorem padded_setPadded (f : Frame) (b : UInt8) : (f.setPadded b).padded = b := by
  apply UInt8.toNat_inj.mp
  simp [Frame.padded, Frame.setPadded]

theorem mem_cons {f : Frame} {b : UInt8} {r : Bytes} (hd : f.data = b :: r)
    (hs : f.size = f.data.length) : f.mem = b :: (r ++ [0]) := by
  have : f.size ≠ 0 := by rw [hs, hd]; simp
  rw [Frame.mem, if_neg this, hd, List.cons_append]

theorem hdrPadding_off {f : Frame} (h : f.flags &&& flagPadded = 0) (fatal : Bool) :
    hdrPadding fatal f = .ok (f.size, 0, f) := by
  simp [hdrPadding, h]

theorem hdrPadding_on {f : Frame} {b : UInt8} {r : Bytes} (h : f.flags &&& flagPadded ≠ 0)
    (ht : f.type ≠ typeContinuation) (hd : f.data = b :: r) (hs : f.size = f.data.length)
    (hb : b.toNat < f.size) (fatal : Bool) :
    hdrPadding fatal f = .ok (f.size - b.toNat, 1, f.setPadded b) := by
  simp [hdrPadding, h, ht, mem_cons hd hs, load, hb]

theorem hdrFields_prio {f : Frame} {n : Nat} {w : UInt8} {r : Bytes} (ht : f.type = typeHeaders)
    (h : f.flags &&& flagPriority ≠ 0) (hm : f.mem = vbe32enc n ++ w :: r) (hn : n < 2 ^ 32)
    (streams : List PrioStream) (k shift : Nat) :
    hdrFields streams k f shift = .ok (shift + 5,
      (let streams := setPrio streams k (n % 2 ^ 31 : Nat) (charToInt w)
        if n / 2 ^ 31 ≠ 0 then exclusiveStreamDependency streams k else streams), f) := by
  have hdec := vbe32dec_enc n (w :: r) hn
  have hw : load f.mem 4 = .ok w := by rw [hm]; rfl
  rw [← hm] at hdec
  simp only [hdrFields, ht, h, ne_eq, not_false_eq_true, and_self, if_true, hdec, ok_bind, hw,
    pure_res]

theorem hdrFields_push {f : Frame} {n : Nat} {r : Bytes} (ht : f.type = typePushPromise)
    (hm : f.mem = vbe32enc n ++ r) (hn : n < 2 ^ 32) (streams : List PrioStream) (k shift : Nat) :
    hdrFields streams k f shift =
      .ok (shift + 4, streams, { f with md := UInt32.ofNat (n % 2 ^ 31) }) := by
  have hdec := vbe32dec_enc n r hn
  rw [← hm] at hdec
  simp [hdrFields, ht, typePushPromise, typeHeaders, hdec]

theorem hdrFields_off {f : Frame} (ht : f.type = typeHeaders → f.flags &&& flagPriority = 0)
    (hp : f.type ≠ typePushPromise) (streams : List PrioStream) (k shift : Nat) :
    hdrFields streams k f shift = .ok (shift, streams, f) := by
  have h : ¬ (f.type = typeHeaders ∧ f.flags &&& flagPriority ≠ 0) := fun h => h.2 (ht h.1)
  rw [hdrFields, if_neg h, if_neg hp]

/-- The fields in front of the block and the padding behind it are cut off. -/
theorem hdrAppend_block {f : Frame} {lead block pad : Bytes} (hd : f.data = lead ++ block ++ pad)
    (vsb : Bytes) :
    hdrAppend f vsb (lead.length + block.length) lead.length = .ok (vsb ++ block) := by
  unfold hdrAppend
  rw [if_neg (by simp [hd]), hd, List.append_assoc, List.drop_left]
  simp

theorem parseHdr_eq {fatal : Bool} {streams streams' : List PrioStream} {k size shift shift' : Nat}
    {f f1 f2 : Frame} {vsb vsb' : Bytes} (h1 : hdrPadding fatal f = .ok (size, shift, f1))
    (h2 : hdrFields streams k f1 shift = .ok (shift', streams', f2))
    (h3 : hdrAppend f2 vsb size shift' = .ok vsb') :
    parseHdr fatal streams k f vsb = .ok (streams', f2, vsb') := by
  simp [parseHdr, h1, h2, h3]

theorem parseHdr_inv {fatal : Bool} {streams streams' : List PrioStream} {k : Nat} {f f' : Frame}
    {vsb vsb' : Bytes} (h : parseHdr fatal streams k f vsb = .ok (streams', f', vsb')) :
    ∃ size shift f1 shift', hdrPadding fatal f = .ok (size, shift, f1) ∧
      hdrFields streams k f1 shift = .ok (shift', streams', f') := by
  obtain ⟨⟨size, shift, f1⟩, h1, h⟩ := bind_eq_ok.mp h
  obtain ⟨⟨shift', streams1, f2⟩, h2, h⟩ := bind_eq_ok.mp h
  obtain ⟨vsb1, _, h⟩ := bind_eq_ok.mp h
  cases h
  exact ⟨size, shift, f1, shift', h1, h2⟩

/-- The options that reach the receiver as padding. -/
def Tx11.pad : Tx11 → Option Bytes
  | .headers _ pad => pad
  | .push _ _ pad => pad
  | .cont => none

/-- The receiver has what was sent: the header block, the priority of its stream, the length of
the padding as `frame.padding` reads it, and the promised id. -/
structure Arrived (tx : Tx11) (streams : List PrioStream) (k : Nat) (block vsb : Bytes)
    (streams' : List PrioStream) (f : Frame) (vsb' : Bytes) : Prop where
  block : vsb' = vsb ++ block
  prio : streams' = tx11Streams streams k tx
  padding : ∀ pad, tx.pad = some pad → f.padded.toNat = pad.length
  promised : ∀ n h pad, tx = .push n h pad → f.promised = n

/-- Whatever the header block, the streams of the receiver and the old content of the sender's
buffer are: if `cmd_tx11obj` sends a frame, then it arrives. -/
def Survives (tx : Tx11) : Prop :=
  ∀ (blk : TxBuf) (stid : Nat) (hdrEnd strEnd fatal : Bool) (block vsb : Bytes)
    (streams : List PrioStream) (k : Nat) (f : Frame),
    tx11Frame blk stid hdrEnd strEnd block tx = .ok f →
    ∃ streams' f' vsb', parseHdr fatal streams k f vsb = .ok (streams', f', vsb') ∧
      Arrived tx streams k block vsb streams' f' vsb'

theorem toNat_padLength {pad : Bytes} (h : pad.length ≤ 255) :
    (UInt8.ofNat pad.length).toNat = pad.length := by
  rw [UInt8.toNat_ofNat']
  exact Nat.mod_eq_of_lt (by omega)

theorem survives_plain : Survives (.headers none none) := by
  intro blk stid hdrEnd strEnd fatal block vsb streams k f h
  obtain ⟨_, hf⟩ := tx11Frame_headers h
  have hpad : f.flags &&& flagPadded = 0 := by
    rw [hf]
    simpa using flags_padded hdrEnd strEnd false false
  have hprio : f.flags &&& flagPriority = 0 := by
    rw [hf]
    simpa using flags_priority hdrEnd strEnd false false
  have ht : f.type = typeHeaders := by rw [hf]
  have hs : f.size = 0 + block.length := by
    rw [hf]
    simp [padLead, prioBytes, padBytes]
  have hd : f.data = [] ++ block ++ [] := by
    rw [hf]
    simp [padLead, prioBytes, padBytes]
  refine ⟨streams, f, vsb ++ block, parseHdr_eq (hdrPadding_off hpad fatal)
    (hdrFields_off (fun _ => hprio) ?_ streams k 0) ?_, rfl, rfl, (fun pad hp => by cases hp),
    (fun n h pad hp => by cases hp)⟩
  · rw [ht]; decide
  · rw [hs]
    exact hdrAppend_block hd vsb

theorem survives_padded (pad : Bytes) : Survives (.headers none (some pad)) := by
  intro blk stid hdrEnd strEnd fatal block vsb streams k f h
  obtain ⟨hlen, hf⟩ := tx11Frame_headers h
  have hL := toNat_padLength (hlen pad rfl)
  have hpad : f.flags &&& flagPadded ≠ 0 := by
    rw [hf]
    simpa using flags_padded hdrEnd strEnd false true
  have hprio : f.flags &&& flagPriority = 0 := by
    rw [hf]
    simpa using flags_priority hdrEnd strEnd false true
  have ht : f.type = typeHeaders := by rw [hf]
  have hd : f.data = [UInt8.ofNat pad.length] ++ block ++ pad := by
    rw [hf]
    simp [padLead, prioBytes, padBytes]
  have hs : f.size = f.data.length := by rw [hf]
  have hsz : f.size = pad.length + (1 + block.length) := by
    rw [hs, hd]
    simp
    omega
  have hcont : f.type ≠ typeContinuation := by rw [ht]; decide
  have hpush : f.type ≠ typePushPromise := by rw [ht]; decide
  have hfields : hdrFields streams k (f.setPadded (UInt8.ofNat pad.length)) 1 =
      .ok (1, streams, f.setPadded (UInt8.ofNat pad.length)) :=
    hdrFields_off (f := f.setPadded _) (fun _ => hprio) hpush streams k 1
  refine ⟨streams, f.setPadded (UInt8.ofNat pad.length), vsb ++ block,
    parseHdr_eq (hdrPadding_on hpad hcont hd hs (by omega) fatal) hfields ?_, rfl, rfl, ?_,
    (fun n h pad hp => by cases hp)⟩
  · rw [hL, hsz, Nat.add_sub_cancel_left]
    exact hdrAppend_block (f := f.setPadded _) hd vsb
  · intro pad' hp
    cases hp
    rw [padded_setPadded, hL]

/-- A weight the signed `char` of the receiver can hold. -/
theorem survives_prio (p : Prio) (hw : p.weight < 128) : Survives (.headers (some p) none) := by
  intro blk stid hdrEnd strEnd fatal block vsb streams k f h
  obtain ⟨_, hf⟩ := tx11Frame_headers h
  have hpad : f.flags &&& flagPadded = 0 := by
    rw [hf]
    simpa using flags_padded hdrEnd strEnd true false
  have hprio : f.flags &&& flagPriority ≠ 0 := by
    rw [hf]
    simpa using flags_priority hdrEnd strEnd true false
  have ht : f.type = typeHeaders := by rw [hf]
  have hd : f.data = (vbe32enc p.stid ++ [UInt8.ofNat p.weight]) ++ block ++ [] := by
    rw [hf]
    simp [padLead, prioBytes, padBytes]
  have hs : f.size = 5 + block.length := by
    rw [hf]
    simp [padLead, prioBytes, padBytes]
    omega
  have hm : f.mem = vbe32enc p.stid ++ UInt8.ofNat p.weight :: (block ++ [0]) := by
    rw [Frame.mem, if_neg (by omega), hd]
    simp
  have hwt := charToInt_ofNat p.weight_lt
  rw [if_pos hw] at hwt
  have hfields : hdrFields streams k f 0 =
      .ok (5, tx11Streams streams k (.headers (some p) none), f) := by
    rw [hdrFields_prio ht hprio hm p.stid_lt streams k 0, p.stid_mod, hwt]
    simp only [tx11Streams, p.stid_div]
  refine ⟨tx11Streams streams k (.headers (some p) none), f, vsb ++ block,
    parseHdr_eq (hdrPadding_off hpad fatal) hfields ?_, rfl, rfl, (fun pad hp => by cases hp),
    (fun n h pad hp => by cases hp)⟩
  rw [hs]
  exact hdrAppend_block hd vsb

theorem survives_push (n : Nat) (hn : n < 2 ^ 31) : Survives (.push n hn none) := by
  intro blk stid hdrEnd strEnd fatal block vsb streams k f h
  have hf := tx11Frame_push h
  have hpad : f.flags &&& flagPadded = 0 := by rw [hf]; exact baseFlags_padded hdrEnd strEnd
  have ht : f.type = typePushPromise := by rw [hf]
  have hd : f.data = vbe32enc n ++ block ++ [] := by rw [hf]; simp
  have hs : f.size = 4 + block.length := by rw [hf]; simp
  have hm : f.mem = vbe32enc n ++ (block ++ [0]) := by
    rw [Frame.mem, if_neg (by omega), hd]
    simp
  refine ⟨streams, _, vsb ++ block, parseHdr_eq (hdrPadding_off hpad fatal)
    (hdrFields_push ht hm (by omega) streams k 0) ?_, rfl, rfl, (fun pad hp => by cases hp), ?_⟩
  · rw [hs]
    exact hdrAppend_block (f := { f with md := _ }) hd vsb
  · intro n' h' pad hp
    cases hp
    rw [Frame.promised, UInt32.toNat_ofNat']
    omega

theorem survives_cont : Survives .cont := by
  intro blk stid hdrEnd strEnd fatal block vsb streams k f h
  have hf := tx11Frame_cont h
  have hpad : f.flags &&& flagPadded = 0 := by rw [hf]; exact baseFlags_padded hdrEnd strEnd
  have ht : f.type = typeContinuation := by rw [hf]
  have hs : f.size = 0 + block.length := by rw [hf]; simp
  have hd : f.data = [] ++ block ++ [] := by rw [hf]; simp
  refine ⟨streams, f, vsb ++ block, parseHdr_eq (hdrPadding_off hpad fatal)
    (hdrFields_off ?_ ?_ streams k 0) ?_, rfl, rfl, (fun pad hp => by cases hp),
    (fun n h pad hp => by cases hp)⟩
  · intro hh
    rw [ht] at hh
    exact absurd hh (by decide)
  · rw [ht]; decide
  · rw [hs]
    exact hdrAppend_block hd vsb

/-! ## Which combinations survive -/

theorem exists_txBuf : Nonempty TxBuf := ⟨⟨List.replicate bufSize 0, List.length_replicate⟩⟩

/-- An empty header block is sent with any priority, with no padding or with an empty one. -/
theorem tx11Frame_empty (blk : TxBuf) (stid : Nat) (prio : Prio) {pad : Option Bytes}
    (hp : pad = none ∨ pad = some []) :
    ∃ f, tx11Frame blk stid false false [] (.headers (some prio) pad) = .ok f := by
  have hbuf := lt_bufSize
  obtain ⟨m, hm⟩ := blk
  have h0 : poke m 0 [] = .ok ([] ++ m) := by
    rw [poke_zero (by simp)]
    simp
  have h1 := addPriority_append [] m prio (by omega) (by simp; omega)
  generalize hbody : vbe32enc prio.stid ++ [UInt8.ofNat prio.weight] ++ [] = body at h1
  have hlen : body.length = ([] : Bytes).length + 5 := by rw [← hbody]; rfl
  rw [← hlen] at h1
  rcases hp with rfl | rfl
  · simp only [tx11Frame, h0, ok_bind, addPriority?, h1, addPadding?, sendBuf]
    rw [if_pos (by simp)]
    exact ⟨_, rfl⟩
  · have hroom : 1 + ([] : Bytes).length ≤ (m.drop 5).length := by simp; omega
    obtain ⟨x, old, tail, hr, ho⟩ := exists_room hroom
    have h2 := addPadding_append body x tail (by simp) ho (by simp [hlen]; omega)
    rw [hr] at h1
    simp only [tx11Frame, h0, ok_bind, addPriority?, h1, addPadding?, h2, sendBuf]
    rw [if_pos (by simp)]
    exact ⟨_, rfl⟩

/-- A weight of 128 or more arrives as a negative number. -/
theorem not_survives_weight (p : Prio) (hw : ¬ p.weight < 128) :
    ¬ Survives (.headers (some p) none) := by
  intro hsurv
  obtain ⟨blk⟩ := exists_txBuf
  obtain ⟨f, h⟩ := tx11Frame_empty blk 1 p (.inl rfl)
  obtain ⟨streams', f', vsb', hparse, harr⟩ := hsurv _ _ _ _ true _ [] [⟨0, 0, 0⟩] 0 f h
  obtain ⟨_, hf⟩ := tx11Frame_headers h
  have hpad : f.flags &&& flagPadded = 0 := by
    rw [hf]
    simpa using flags_padded false false true false
  have hprio : f.flags &&& flagPriority ≠ 0 := by
    rw [hf]
    simpa using flags_priority false false true false
  have ht : f.type = typeHeaders := by rw [hf]
  have hm : f.mem = vbe32enc p.stid ++ UInt8.ofNat p.weight :: [0] := by
    rw [hf]
    simp [Frame.mem, padLead, prioBytes, padBytes]
  obtain ⟨size, shift, f1, shift', h1, h2⟩ := parseHdr_inv hparse
  rw [hdrPadding_off hpad] at h1
  cases h1
  rw [hdrFields_prio ht hprio hm p.stid_lt] at h2
  cases h2
  have hw' := charToInt_ofNat p.weight_lt
  rw [if_neg hw] at hw'
  have hweight := congrArg (fun l => (l.map PrioStream.weight).head?) harr.prio
  -- stream 0 has no exclusive dependency, so only the weight counts
  simp [tx11Streams, exclusiveStreamDependency, setPrio, hw'] at hweight

/-- Behind the pad length, the receiver takes the dependency from the wrong place. -/
theorem not_survives_padded_prio (w : Nat) (hw : w < 2 ^ 8) :
    ¬ Survives (.headers (some { dep := 1, weight := w, weight_lt := hw }) (some [])) := by
  intro hsurv
  obtain ⟨blk⟩ := exists_txBuf
  obtain ⟨f, h⟩ := tx11Frame_empty blk 1 { dep := 1, weight := w, weight_lt := hw } (.inr rfl)
  obtain ⟨streams', f', vsb', hparse, harr⟩ := hsurv _ _ _ _ true _ [] [⟨0, 0, 0⟩] 0 f h
  obtain ⟨_, hf⟩ := tx11Frame_headers h
  have hpad : f.flags &&& flagPadded ≠ 0 := by
    rw [hf]
    simpa using flags_padded false false true true
  have hprio : f.flags &&& flagPriority ≠ 0 := by
    rw [hf]
    simpa using flags_priority false false true true
  have ht : f.type = typeHeaders := by rw [hf]
  have hd : f.data = 0 :: (vbe32enc 1 ++ [UInt8.ofNat w]) := by
    rw [hf]
    simp [padLead, prioBytes, padBytes, Prio.stid]
  have hs : f.size = f.data.length := by rw [hf]
  have hm : (f.setPadded 0).mem = vbe32enc 0 ++ 1 :: [UInt8.ofNat w, 0] := by
    rw [show (f.setPadded 0).mem = f.mem from rfl, mem_cons hd hs]
    rfl
  obtain ⟨size, shift, f1, shift', h1, h2⟩ := parseHdr_inv hparse
  rw [hdrPadding_on hpad (by rw [ht]; decide) hd hs (by rw [hs, hd]; simp)] at h1
  cases h1
  rw [hdrFields_prio (f := f.setPadded 0) ht hprio hm (by decide)] at h2
  cases h2
  have hdep := congrArg (fun l => (l.map PrioStream.dependency).head?) harr.prio
  simp [tx11Streams, setPrio] at hdep

/-- The frame for an empty block, an empty padding and the promised id 1. -/
theorem tx11Frame_push_empty (blk : TxBuf) (stid : Nat) (h1 : 1 < 2 ^ 31) :
    ∃ x, tx11Frame blk stid false false [] (.push 1 h1 (some [])) =
      .ok ⟨5, stid, typePushPromise, flagPadded, [0, 0, 0, 1, x], 0⟩ := by
  have hbuf := lt_bufSize
  obtain ⟨m, hm⟩ := blk
  obtain ⟨hd, m, rfl, h5⟩ : ∃ hd r, m = hd ++ r ∧ hd.length = 5 :=
    ⟨m.take 5, m.drop 5, by simp, by simp; omega⟩
  match hd, h5 with
  | [a, b, c, d, x], _ =>
    have h0 : poke ([a, b, c, d, x] ++ m) 4 [] = .ok ([a, b, c, d, x] ++ m) := by
      simp [poke, put]
    have hid : poke ([a, b, c, d, x] ++ m) 0 (vbe32enc 1) =
        .ok ([] ++ 0 :: ([] ++ 0 :: 0 :: 1 :: x :: m)) := by
      simp [poke, put, vbe32enc]
    have hpad : addPadding ([] ++ 0 :: ([] ++ 0 :: 0 :: 1 :: x :: m)) ([] : Bytes).length [] =
        .ok (0 :: ([] ++ [] ++ 0 :: 0 :: 1 :: x :: m), 1) :=
      addPadding_append [] 0 _ (by simp) rfl (by simp; omega)
    refine ⟨x, ?_⟩
    simp only [tx11Frame, h0, hid, ok_bind, addPadding?, hpad, sendBuf]
    rw [if_pos (by simp)]
    rfl

/-- The `memmove` for the padding leaves four bytes behind, and the union of the receiver keeps the
promised id in place of the padding length. -/
theorem not_survives_padded_push (h1 : 1 < 2 ^ 31) : ¬ Survives (.push 1 h1 (some [])) := by
  intro hsurv
  obtain ⟨blk⟩ := exists_txBuf
  obtain ⟨x, h⟩ := tx11Frame_push_empty blk 1 h1
  obtain ⟨streams', f', vsb', hparse, harr⟩ := hsurv _ _ _ _ true _ [] [] 0 _ h
  obtain ⟨size, shift, f1, shift', h2, h3⟩ := parseHdr_inv hparse
  rw [hdrPadding_on (show flagPadded &&& flagPadded ≠ 0 by decide)
    (show typePushPromise ≠ typeContinuation by decide) rfl rfl
    (show (0 : UInt8).toNat < 5 by decide)] at h2
  cases h2
  rw [hdrFields_push (n := 1) (r := [x, 0]) rfl rfl (by decide)] at h3
  cases h3
  have hp : (1 : UInt32).toUInt8.toNat = 0 := harr.padding [] rfl
  exact absurd hp (by decide)

/-- Which options a command is given, and the weight. -/
inductive Options where
  | headers (weight : Option Nat) (padded : Bool)
  | push (padded : Bool)
  | cont
  deriving DecidableEq

def Tx11.options : Tx11 → Options
  | .headers prio pad => .headers (prio.map Prio.weight) pad.isSome
  | .push _ _ pad => .push pad.isSome
  | .cont => .cont

/-- A priority has a weight below 128 and comes without padding; a promise comes without padding. -/
def Options.Sound : Options → Prop
  | .headers (some w) padded => w < 128 ∧ padded = false
  | .headers none _ => True
  | .push padded => padded = false
  | .cont => True

theorem survives_of_sound {tx : Tx11} (h : tx.options.Sound) : Survives tx := by
  cases tx with
  | headers prio pad =>
    cases prio with
    | none =>
      cases pad with
      | none => exact survives_plain
      | some pad => exact survives_padded pad
    | some p =>
      cases pad with
      | none => exact survives_prio p h.1
      | some pad => exact absurd h.2 (by simp)
  | push n hn pad =>
    cases pad with
    | none => exact survives_push n hn
    | some pad => exact absurd h (by simp [Tx11.options, Options.Sound])
  | cont => exact survives_cont

/-- **Which header frames survive.** All commands that give the same options as `tx`, with any
contents, get their payload across exactly when a priority is not combined with padding and has a
weight below 128, and a promise is not combined with padding. -/
theorem header_frame_survives_iff (tx : Tx11) :
    (∀ tx' : Tx11, tx'.options = tx.options → Survives tx') ↔ tx.options.Sound := by
  constructor
  · intro hall
    cases tx with
    | headers prio pad =>
      cases prio with
      | none => trivial
      | some p =>
        cases pad with
        | none =>
          by_contra hw
          exact not_survives_weight p (fun h => hw ⟨h, rfl⟩) (hall _ rfl)
        | some pad => exact (not_survives_padded_prio p.weight p.weight_lt (hall _ rfl)).elim
    | push n hn pad =>
      cases pad with
      | none => rfl
      | some pad => exact (not_survives_padded_push (by decide) (hall _ rfl)).elim
    | cont => trivial
  · intro hs tx' ho
    exact survives_of_sound (ho ▸ hs)

/-- `-dep 1 -pad ""` arrives as a dependency on stream 0. -/
theorem padded_priority_lost :
    ¬ Survives (.headers (some { dep := 1 }) (some [])) ∧
      ¬ Survives (.headers (some { weight := 200 }) none) ∧
      ¬ Survives (.push 1 (by decide) (some [])) :=
  ⟨not_survives_padded_prio 16 (by decide), not_survives_weight _ (by decide),
    not_survives_padded_push (by decide)⟩

end Http2
end VTest
