import VTest.Lib.Bytes

/-!
# VTest.Http2.Frame

HTTP/2 frames of `vtc_http2.c`: the nine-byte header, and how `receive_frame` takes a frame off the
connection with `get_bytes`.

The transport is a stream of bytes and a list of what the next `poll` and `read` calls do with it.

* `readFrameHeader_write`: the header round trip.
* `getBytes_segments`: what `get_bytes` leaves in its buffer, for any segmentation. The loop hands
  the same address to every `read`, so each part lands on the one before.
* `overlay_last`: after two reads or more, the last byte of the buffer was never written.
-/

namespace VTest
namespace Http2

/-! ## Frames -/

def typeData : UInt8 := 0x0

def typeHeaders : UInt8 := 0x1

def typeSettings : UInt8 := 0x4

def typePushPromise : UInt8 := 0x5

def typeWindowUpdate : UInt8 := 0x8

def typeContinuation : UInt8 := 0x9

/-- `ACK` and `END_STREAM` share a bit. -/
def flagAck : UInt8 := 0x1

def flagEndStream : UInt8 := 0x1

def flagEndHeaders : UInt8 := 0x4

def flagPadded : UInt8 := 0x8

def flagPriority : UInt8 := 0x20

/-- `struct frame`. `md` is the first four bytes of the union, which `ALLOC_OBJ` clears. -/
structure Frame where
  size : Nat
  stid : Nat
  type : UInt8
  flags : UInt8
  data : Bytes := []
  md : UInt32 := 0
  deriving DecidableEq, Repr

def readFrameHeader (buf : Bytes) : Res Frame := do
  match buf with
  | b0 :: b1 :: b2 :: b3 :: b4 :: r =>
    let stid ← vbe32dec r
    return {
      size := b0.toNat * 2 ^ 16 + b1.toNat * 2 ^ 8 + b2.toNat
      type := b3
      flags := b4
      stid := stid }
  | _ => .error .ub

/-- The size is cut to its low 24 bits. -/
def writeFrameHeader (f : Frame) : Bytes :=
  [UInt8.ofNat (f.size / 2 ^ 16), UInt8.ofNat (f.size / 2 ^ 8), UInt8.ofNat f.size, f.type,
    f.flags] ++ vbe32enc f.stid

@[simp] theorem length_writeFrameHeader (f : Frame) : (writeFrameHeader f).length = 9 := rfl

theorem readFrameHeader_write {f : Frame} (hs : f.size < 2 ^ 24) (hi : f.stid < 2 ^ 32) :
    readFrameHeader (writeFrameHeader f) =
      .ok { size := f.size, stid := f.stid, type := f.type, flags := f.flags } := by
  have hdec : vbe32dec (vbe32enc f.stid) = .ok f.stid := by
    have := vbe32dec_enc f.stid [] hi
    rwa [List.append_nil] at this
  have hsize : (UInt8.ofNat (f.size / 2 ^ 16)).toNat * 2 ^ 16 +
      (UInt8.ofNat (f.size / 2 ^ 8)).toNat * 2 ^ 8 + (UInt8.ofNat f.size).toNat = f.size := by
    simp only [UInt8.toNat_ofNat']
    omega
  simp only [writeFrameHeader, List.cons_append, List.nil_append, readFrameHeader, hdec, ok_bind,
    pure_res, hsize]

/-- What `write_frame` puts on the connection. -/
def Frame.bytes (f : Frame) : Bytes := writeFrameHeader f ++ f.data

/-! ## `get_bytes` -/

/-- What the next `poll` and `read` do: `poll` is interrupted, runs into its timeout or fails;
or `read` fails or returns up to `k` bytes, where 0 bytes are the end of the stream. -/
inductive RxEvent where
  | eintr
  | timeout
  | pollFailed
  | readFailed
  | read (k : Nat)
  deriving DecidableEq, Repr

/-- Returns what the source returns, the buffer, and what is left of the stream. The events run out
before the loop ends when `poll` has not returned yet. -/
def getBytes : List RxEvent → Bytes → Bytes → Nat → Res (Int × Bytes × Bytes × List RxEvent)
  | evs, stream, buf, 0 => .ok (1, buf, stream, evs)
  | [], _, _, _ + 1 => .error .fuel
  | .eintr :: evs, stream, buf, n + 1 => getBytes evs stream buf (n + 1)
  | .timeout :: evs, stream, buf, _ + 1 => .ok (0, buf, stream, evs)
  | .pollFailed :: evs, stream, buf, _ + 1 => .ok (-1, buf, stream, evs)
  | .readFailed :: evs, stream, buf, _ + 1 => .ok (-1, buf, stream, evs)
  | .read k :: evs, stream, buf, n + 1 =>
    let i := min (min k (n + 1)) stream.length
    if i = 0 then .ok (0, buf, stream, evs)
    else getBytes evs (stream.drop i) (put buf 0 (stream.take i)) (n + 1 - i)

/-- The events deliver exactly `n` bytes: `poll` may be interrupted, every `read` returns between 1
and the number of bytes asked for. -/
inductive Segments : Nat → List RxEvent → Prop where
  | nil : Segments 0 []
  | eintr {n : Nat} {evs : List RxEvent} (hn : 0 < n) (h : Segments n evs) :
      Segments n (.eintr :: evs)
  | read {n k : Nat} {evs : List RxEvent} (hk : 0 < k) (hle : k ≤ n) (h : Segments (n - k) evs) :
      Segments n (.read k :: evs)

/-- How many of the events are reads. -/
def reads : List RxEvent → Nat
  | [] => 0
  | .read _ :: evs => reads evs + 1
  | _ :: evs => reads evs

/-- The parts of the stream, each put at the start of the buffer. -/
def overlay : List RxEvent → Bytes → Bytes → Bytes
  | [], _, buf => buf
  | .read k :: evs, stream, buf => overlay evs (stream.drop k) (put buf 0 (stream.take k))
  | _ :: evs, stream, buf => overlay evs stream buf

theorem getBytes_segments {n : Nat} {evs : List RxEvent} (h : Segments n evs) :
    ∀ (rest : List RxEvent) (stream buf : Bytes), n ≤ stream.length →
      getBytes (evs ++ rest) stream buf n =
        .ok (1, overlay evs stream buf, stream.drop n, rest) := by
  induction h with
  | nil => intro rest stream buf _; simp [getBytes, overlay]
  | @eintr n evs hn h ih =>
    intro rest stream buf hlen
    obtain ⟨m, rfl⟩ := Nat.exists_eq_succ_of_ne_zero (Nat.pos_iff_ne_zero.mp hn)
    simpa only [List.cons_append, getBytes, overlay] using ih rest stream buf hlen
  | @read n k evs hk hle h ih =>
    intro rest stream buf hlen
    obtain ⟨m, rfl⟩ := Nat.exists_eq_succ_of_ne_zero (show n ≠ 0 by omega)
    have hi : min (min k (m + 1)) stream.length = k := by omega
    have hrec := ih rest (stream.drop k) (put buf 0 (stream.take k)) (by
      rw [List.length_drop]; omega)
    rw [List.drop_drop, Nat.add_sub_cancel' hle] at hrec
    simp only [List.cons_append, getBytes, hi, Nat.pos_iff_ne_zero.mp hk, if_false, overlay]
    exact hrec

/-! ## Segmentation -/

theorem Segments.pos {n : Nat} {evs : List RxEvent} (h : Segments n evs) (hn : 0 < n) :
    0 < reads evs := by
  induction h with
  | nil => omega
  | eintr hn _ ih => exact ih hn
  | read _ _ _ _ => exact Nat.succ_pos _

theorem Segments.eq_nil {n : Nat} {evs : List RxEvent} (h : Segments n evs) (hn : n = 0) :
    evs = [] := by
  cases h with
  | nil => rfl
  | eintr hpos _ => omega
  | read hk hle _ => omega

/-- One read fills the buffer. -/
theorem overlay_of_one {n : Nat} {evs : List RxEvent} (h : Segments n evs) :
    ∀ (stream buf : Bytes), reads evs ≤ 1 → n ≤ stream.length →
      (overlay evs stream buf).take n = stream.take n := by
  induction h with
  | nil => intro stream buf _ _; simp
  | eintr _ _ ih =>
    intro stream buf hr hlen
    exact ih stream buf hr hlen
  | @read n k evs hk hle h _ =>
    intro stream buf hr hlen
    have h0 : n - k = 0 := by
      by_contra hne
      have := h.pos (by omega)
      simp only [reads] at hr
      omega
    have hkn : k = n := by omega
    subst hkn
    rw [h.eq_nil h0]
    simp [overlay, put, hlen]

/-- A byte behind every part is never written. -/
theorem overlay_keeps {n : Nat} {evs : List RxEvent} (h : Segments n evs) :
    ∀ (stream buf : Bytes) (j : Nat), n ≤ j → n ≤ stream.length → j < buf.length →
      (overlay evs stream buf)[j]? = buf[j]? := by
  induction h with
  | nil => intro stream buf j _ _ _; rfl
  | eintr _ _ ih => intro stream buf j hj hs hb; exact ih stream buf j hj hs hb
  | @read n k evs hk hle h ih =>
    intro stream buf j hj hs hb
    have hlen : (stream.take k).length = k := by rw [List.length_take]; omega
    simp only [overlay]
    rw [ih _ _ j (by omega) (by rw [List.length_drop]; omega)
      (by rw [length_put (by omega)]; exact hb)]
    rw [put, List.take_zero, List.nil_append, List.getElem?_append_right (by omega), hlen,
      List.getElem?_drop]
    congr 1
    omega

/-- After two reads or more, the last byte of the buffer is still the old one. -/
theorem overlay_last {n : Nat} {evs : List RxEvent} (h : Segments n evs) :
    ∀ (stream buf : Bytes), 2 ≤ reads evs → n ≤ stream.length → n ≤ buf.length →
      (overlay evs stream buf)[n - 1]? = buf[n - 1]? := by
  induction h with
  | nil => intro stream buf hr; simp [reads] at hr
  | eintr _ _ ih => intro stream buf hr hs hb; exact ih stream buf hr hs hb
  | @read n k evs hk hle h ih =>
    intro stream buf hr hs hb
    have hlt : k < n := by
      by_contra hge
      have h0 : n - k = 0 := by omega
      rw [h.eq_nil h0] at hr
      simp [reads] at hr
    have hlen : (stream.take k).length = k := by rw [List.length_take]; omega
    simp only [overlay]
    rw [overlay_keeps h _ _ (n - 1) (by omega) (by rw [List.length_drop]; omega)
      (by rw [length_put (by omega)]; omega)]
    rw [put, List.take_zero, List.nil_append, List.getElem?_append_right (by omega), hlen,
      List.getElem?_drop]
    congr 1
    omega

theorem length_overlay {n : Nat} {evs : List RxEvent} (h : Segments n evs) :
    ∀ (stream buf : Bytes), n ≤ stream.length → n ≤ buf.length →
      (overlay evs stream buf).length = buf.length := by
  induction h with
  | nil => intro stream buf _ _; rfl
  | eintr _ _ ih => intro stream buf hs hb; exact ih stream buf hs hb
  | @read n k evs hk hle h ih =>
    intro stream buf hs hb
    have hlen : (stream.take k).length = k := by rw [List.length_take]; omega
    have hput : (put buf 0 (stream.take k)).length = buf.length := length_put (by omega)
    simp only [overlay]
    rw [ih _ _ (by rw [List.length_drop]; omega) (by omega), hput]

/-- A buffer of exactly `n` bytes has the next `n` bytes of the stream after one read. -/
theorem overlay_eq_take {n : Nat} {evs : List RxEvent} (h : Segments n evs) {stream buf : Bytes}
    (hr : reads evs ≤ 1) (hs : n ≤ stream.length) (hb : buf.length = n) :
    overlay evs stream buf = stream.take n := by
  have hlen := length_overlay h stream buf hs (by omega)
  rw [← overlay_of_one h stream buf hr hs, List.take_of_length_le (by omega)]

/-! ## Receiving a frame -/

/-- A fresh buffer of `n` bytes, with whatever was there before. -/
def fresh (junk : Nat → UInt8) (n : Nat) : Bytes := (List.range n).map junk

@[simp] theorem length_fresh (junk : Nat → UInt8) (n : Nat) : (fresh junk n).length = n := by
  simp [fresh]

theorem fresh_getElem? {junk : Nat → UInt8} {n i : Nat} (h : i < n) :
    (fresh junk n)[i]? = some (junk i) := by
  simp [fresh, h]

/-- How `receive_frame` takes a frame off the connection: `hdr` is on its stack, the payload in a
new block. `none` says that the connection failed. -/
def rxFrame (stack heap : Nat → UInt8) (evs : List RxEvent) (stream : Bytes) :
    Res (Option Frame × Bytes × List RxEvent) := do
  let (i, hdr, stream, evs) ← getBytes evs stream (fresh stack 9) 9
  if i ≤ 0 then return (none, stream, evs)
  let f ← readFrameHeader hdr
  if f.size = 0 then return (some f, stream, evs)
  let (i, data, stream, evs) ← getBytes evs stream (fresh heap f.size) f.size
  if i ≤ 0 then return (none, stream, evs)
  return (some { f with data := data }, stream, evs)

/-- A frame as it stands on the connection: its size is that of its payload and fits its field. -/
structure Frame.OnWire (f : Frame) : Prop where
  size : f.data.length = f.size
  fits : f.size < 2 ^ 24
  stid : f.stid < 2 ^ 32
  md : f.md = 0

theorem rxFrame_whole {hevs pevs : List RxEvent} {f : Frame} (hw : f.OnWire)
    (hh : Segments 9 hevs) (hp : Segments f.size pevs) (hh1 : reads hevs ≤ 1)
    (hp1 : reads pevs ≤ 1) (stack heap : Nat → UInt8) (evs : List RxEvent) (rest : Bytes) :
    rxFrame stack heap (hevs ++ (pevs ++ evs)) (f.bytes ++ rest) = .ok (some f, rest, evs) := by
  have hlen : 9 ≤ (f.bytes ++ rest).length := by simp [Frame.bytes]
  have hlen' : f.size ≤ (f.data ++ rest).length := by rw [List.length_append, hw.size]; omega
  have hdrop : (f.bytes ++ rest).drop 9 = f.data ++ rest := by
    rw [Frame.bytes, List.append_assoc, List.drop_left' (length_writeFrameHeader f)]
  have htake : (f.bytes ++ rest).take 9 = writeFrameHeader f := by
    rw [Frame.bytes, List.append_assoc, List.take_left' (length_writeFrameHeader f)]
  have hhdr := getBytes_segments hh (pevs ++ evs) (f.bytes ++ rest) (fresh stack 9) hlen
  rw [overlay_eq_take hh hh1 hlen (length_fresh _ _), hdrop, htake] at hhdr
  have hdata := getBytes_segments hp evs (f.data ++ rest) (fresh heap f.size) hlen'
  rw [overlay_eq_take hp hp1 hlen' (length_fresh _ _), List.take_left' hw.size,
    List.drop_left' hw.size] at hdata
  have hread := readFrameHeader_write hw.fits hw.stid
  obtain ⟨size, stid, type, flags, data, md⟩ := f
  have hmd : md = 0 := hw.md
  subst hmd
  simp only [rxFrame, hhdr, ok_bind, hread]
  by_cases h0 : size = 0
  · have hnil : data = [] := List.length_eq_zero_iff.mp (hw.size.trans h0)
    have hpnil : pevs = [] := hp.eq_nil h0
    simp [h0, hnil, hpnil]
  · simp only [h0, if_false, hdata, ok_bind]
    rfl

theorem vbe32dec_last {r : Bytes} {n : Nat} {b : UInt8} (h : vbe32dec r = .ok n)
    (hb : r[3]? = some b) : n % 2 ^ 8 = b.toNat := by
  unfold vbe32dec at h
  split at h
  · cases h
    simp only [List.getElem?_cons_succ, List.getElem?_cons_zero, Option.some.injEq] at hb
    subst hb
    rename_i d _
    have := d.toNat_lt
    omega
  · cases h

/-- The stream id of a frame ends with the last byte of the header buffer. -/
theorem rxFrame_stid {stack heap : Nat → UInt8} {evs evs' : List RxEvent} {stream stream' : Bytes}
    {hdr : Bytes} {f : Frame} {b : UInt8} {s1 : Bytes} {e1 : List RxEvent}
    (hg : getBytes evs stream (fresh stack 9) 9 = .ok (1, hdr, s1, e1)) (hb : hdr[8]? = some b)
    (h : rxFrame stack heap evs stream = .ok (some f, stream', evs')) :
    f.stid % 2 ^ 8 = b.toNat := by
  rw [rxFrame, hg, ok_bind] at h
  simp only [show ¬ (1 : Int) ≤ 0 by decide, if_false] at h
  obtain ⟨f0, hr, h⟩ := bind_eq_ok.mp h
  have hstid : f0.stid % 2 ^ 8 = b.toNat := by
    unfold readFrameHeader at hr
    split at hr
    · obtain ⟨stid, hd, hr⟩ := bind_eq_ok.mp hr
      cases hr
      exact vbe32dec_last hd hb
    · cases hr
  split at h
  · cases h; exact hstid
  · obtain ⟨⟨i, data, s2, e2⟩, _, h⟩ := bind_eq_ok.mp h
    simp only at h
    split at h
    · cases h
    · cases h; exact hstid

/-- The payload `receive_frame` returns is what `get_bytes` left in its buffer. -/
theorem rxFrame_data {stack heap : Nat → UInt8} {evs evs' e1 e2 : List RxEvent}
    {stream stream' s1 s2 hdr data : Bytes} {f0 f : Frame}
    (hg : getBytes evs stream (fresh stack 9) 9 = .ok (1, hdr, s1, e1))
    (hr : readFrameHeader hdr = .ok f0) (h0 : f0.size ≠ 0)
    (hg2 : getBytes e1 s1 (fresh heap f0.size) f0.size = .ok (1, data, s2, e2))
    (h : rxFrame stack heap evs stream = .ok (some f, stream', evs')) : f.data = data := by
  rw [rxFrame, hg, ok_bind] at h
  simp only [show ¬ (1 : Int) ≤ 0 by decide, if_false, hr, ok_bind, h0, hg2] at h
  cases h
  rfl

/-! ## What a segmentation does to the bytes received -/

/-- `get_bytes` over these events leaves the next `n` bytes of the stream in its buffer, whatever
the stream and the buffer are. -/
def Exact (n : Nat) (evs : List RxEvent) : Prop :=
  ∀ stream buf : Bytes, n ≤ stream.length → n ≤ buf.length →
    ∃ buf', getBytes evs stream buf n = .ok (1, buf', stream.drop n, []) ∧
      buf'.take n = stream.take n

/-- `receive_frame` over these events gets the frame that stands on the connection, whatever that
frame is and whatever was in its buffers. -/
def FrameExact (size : Nat) (hevs pevs : List RxEvent) : Prop :=
  ∀ (f : Frame) (rest : Bytes) (stack heap : Nat → UInt8), f.OnWire → f.size = size →
    rxFrame stack heap (hevs ++ pevs) (f.bytes ++ rest) = .ok (some f, rest, [])

theorem exact_iff {n : Nat} {evs : List RxEvent} (h : Segments n evs) :
    Exact n evs ↔ reads evs ≤ 1 := by
  constructor
  · intro hex
    by_contra hr
    have hn : 0 < n := by
      by_contra h0
      rw [h.eq_nil (by omega)] at hr
      simp [reads] at hr
    -- a stream of zeros into a buffer of ones: the last one survives
    obtain ⟨buf', hg, ht⟩ := hex (List.replicate n 0) (List.replicate n 1) (by simp) (by simp)
    have hseg := getBytes_segments h [] (List.replicate n 0) (List.replicate n 1) (by simp)
    rw [List.append_nil, hg] at hseg
    cases hseg
    have hlast := overlay_last h (List.replicate n 0) (List.replicate n 1) (by omega) (by simp)
      (by simp)
    have ht' := congrArg (fun l : Bytes => l[n - 1]?) ht
    simp only [List.getElem?_take, show n - 1 < n by omega, if_true, hlast,
      List.getElem?_replicate] at ht'
    cases ht'
  · intro hr stream buf hs _
    have hseg := getBytes_segments h [] stream buf hs
    rw [List.append_nil] at hseg
    exact ⟨_, hseg, overlay_of_one h stream buf hr hs⟩

theorem frameExact_iff {size : Nat} {hevs pevs : List RxEvent} (hsz : size < 2 ^ 24)
    (hh : Segments 9 hevs) (hp : Segments size pevs) :
    FrameExact size hevs pevs ↔ reads hevs ≤ 1 ∧ reads pevs ≤ 1 := by
  constructor
  · intro hex
    -- the frame of zeros
    have hw : Frame.OnWire ⟨size, 0, 0, 0, List.replicate size 0, 0⟩ :=
      ⟨by simp, hsz, by simp, rfl⟩
    have hx := hex _ [] (fun _ => 1) (fun _ => 1) hw rfl
    generalize hf : Frame.mk size 0 0 0 (List.replicate size 0) 0 = f at hx hw
    have hlen : 9 ≤ (f.bytes ++ []).length := by simp [Frame.bytes]
    have hhdr := getBytes_segments hh pevs (f.bytes ++ []) (fresh (fun _ => 1) 9) hlen
    have hh1 : reads hevs ≤ 1 := by
      by_contra hr
      have hlast := overlay_last hh (f.bytes ++ []) (fresh (fun _ => 1) 9) (by omega) hlen
        (by simp)
      have hst := rxFrame_stid hhdr (hlast.trans (fresh_getElem? (by decide))) hx
      rw [← hf] at hst
      exact absurd hst (show ¬ 0 % 2 ^ 8 = (1 : UInt8).toNat by decide)
    refine ⟨hh1, ?_⟩
    by_contra hr
    have hpos : size ≠ 0 := by
      intro h0
      rw [hp.eq_nil h0] at hr
      simp [reads] at hr
    rw [overlay_eq_take hh hh1 hlen (length_fresh _ _), Frame.bytes, List.append_nil,
      List.take_left' (length_writeFrameHeader f), List.drop_left' (length_writeFrameHeader f)]
      at hhdr
    have hread := readFrameHeader_write hw.fits hw.stid
    have hfs : f.size = size := by rw [← hf]
    rw [Frame.bytes, List.append_nil] at hx
    have hlen' : size ≤ f.data.length := by rw [hw.size, hfs]
    have hdata := getBytes_segments hp [] f.data (fresh (fun _ => 1) size) hlen'
    rw [List.append_nil] at hdata
    have hfd := rxFrame_data hhdr hread (by rw [hfs]; exact hpos) (by rw [hfs]; exact hdata) hx
    have hlast := overlay_last hp f.data (fresh (fun _ => 1) size) (by omega) hlen' (by simp)
    rw [← hfd, fresh_getElem? (by omega), ← hf] at hlast
    simp [List.getElem?_replicate] at hlast
  · intro ⟨hh1, hp1⟩ f rest stack heap hw hfs
    subst hfs
    have := rxFrame_whole hw hh hp hh1 hp1 stack heap [] rest
    rwa [List.append_nil] at this

/-- **Reception is exact for whole reads only.** `get_bytes` leaves the next bytes of the stream in
its buffer, for every stream, exactly when one `read` delivers them all, and `receive_frame` gets
the frame that was sent exactly when one `read` delivers its header and one its payload. -/
theorem reception_exact_iff_whole_reads {n size : Nat} {evs hevs pevs : List RxEvent}
    (h : Segments n evs) (hsz : size < 2 ^ 24) (hh : Segments 9 hevs) (hp : Segments size pevs) :
    (Exact n evs ↔ reads evs ≤ 1) ∧
      (FrameExact size hevs pevs ↔ reads hevs ≤ 1 ∧ reads pevs ≤ 1) := by
  constructor
  · exact exact_iff h
  · exact frameExact_iff hsz hh hp

/-- A header in one read after an interrupted `poll`, and no payload. -/
theorem reception_exact_empty_frame :
    Exact 9 [.eintr, .read 9] ∧ FrameExact 0 [.eintr, .read 9] [] := by
  have hh : Segments 9 [.eintr, .read 9] := .eintr (by decide) (.read (by decide) (by decide) .nil)
  obtain ⟨hx, hf⟩ := reception_exact_iff_whole_reads hh (by decide) hh .nil
  exact ⟨hx.mpr (by decide), hf.mpr (by decide)⟩

/-- Two bytes in two reads: the second one ends up in place of the first. -/
theorem split_read_overwrites :
    getBytes [.read 1, .read 1] [1, 2] [0, 0] 2 = .ok (1, [2, 0], [], []) ∧
      getBytes [.read 2] [1, 2] [0, 0] 2 = .ok (1, [1, 2], [], []) := by
  constructor <;> rfl

end Http2
end VTest
