import VTest.Http2.Wire
import VTest.Lib.Run

/-!
# VTest.Http2.Body

How `parse_data` puts the body of a stream together, with its sizes as `uint32_t` and the copy into
the reallocated buffer.

* `parseData_body`: the model of the windows has the same body.
* `dataRange_padded`: a padding that is too long makes the size wrap.
* `data_reassembled_iff`: a frame that has padding and no data fails an assertion.
-/

namespace VTest
namespace Http2

/-! ## The body of a stream -/

/-- `s->body` as allocated, with its terminating NUL, and `s->bodylen`. No bytes at all is the null
pointer. -/
structure DataBody where
  mem : Bytes
  bodylen : Nat
  len : bodylen = mem.length - 1
  nul : mem.getLastD 0 = 0

def DataBody.empty : DataBody := ⟨[], 0, rfl, rfl⟩

def DataBody.text (b : DataBody) : Bytes := b.mem.take b.bodylen

@[simp] theorem DataBody.length_text (b : DataBody) : b.text.length = b.bodylen := by
  have := b.len
  simp only [DataBody.text, List.length_take]
  omega

/-- `realloc`, `memcpy` and the NUL behind. -/
def DataBody.append (b : DataBody) (d : Bytes) : DataBody where
  mem := b.text ++ d ++ [0]
  bodylen := b.bodylen + d.length
  len := by simp
  nul := by simp

@[simp] theorem DataBody.text_append (b : DataBody) (d : Bytes) :
    (b.append d).text = b.text ++ d := by
  have hlen : b.bodylen + d.length = (b.text ++ d).length := by simp
  rw [DataBody.text]
  simp only [DataBody.append, hlen, List.take_left]

/-! ## `parse_data` -/

/-- The padding length: `size` and `f->md.padded` as they are before the subtraction. -/
def padCheck (fatal : Bool) (f : Frame) : Res (UInt32 × UInt8) := do
  let padded ← load f.mem 0
  if UInt32.ofNat f.size ≤ padded.toUInt32 then do
    fatalIf fatal
    return (0, 0)
  else return (UInt32.ofNat f.size, padded)

/-- `size`, and how far `data` has moved. -/
def dataRange (fatal : Bool) (f : Frame) : Res (UInt32 × Nat) :=
  if f.flags &&& flagPadded ≠ 0 then do
    let (size, padded) ← padCheck fatal f
    return (size - (padded.toUInt32 + 1), 1)
  else .ok (UInt32.ofNat f.size, 0)

/-- `n` bytes of `m`. -/
def loads (m : Bytes) (off n : Nat) : Res Bytes :=
  if off + n ≤ m.length then .ok ((m.drop off).take n) else .error .ub

/-- `data` is a null pointer only for a frame that has no bytes. -/
def parseDataBody (fatal : Bool) (b : DataBody) (f : Frame) : Res DataBody := do
  let (size, off) ← dataRange fatal f
  if size = 0 then
    check (f.size = 0)
    return b
  else do
    let d ← loads f.mem off size.toNat
    return b.append d

/-- A frame with its payload, as `receive_frame` hands it on. -/
structure Frame.Arrived (f : Frame) : Prop where
  data : f.data.length = f.size
  size : f.size < 2 ^ 32

section Arrived

variable {fatal : Bool} {f : Frame} (hf : f.Arrived)

include hf

theorem Frame.Arrived.length_mem (h0 : f.size ≠ 0) : f.mem.length = f.size + 1 := by
  rw [Frame.mem, if_neg h0, List.length_append, hf.data]
  rfl

theorem Frame.Arrived.toNat_size : (UInt32.ofNat f.size).toNat = f.size := by
  rw [UInt32.toNat_ofNat', Nat.mod_eq_of_lt hf.size]

theorem Frame.Arrived.loads_eq (h0 : f.size ≠ 0) {off n : Nat} (h : off + n ≤ f.size) :
    loads f.mem off n = .ok ((f.data.drop off).take n) := by
  have hd := hf.data
  rw [loads, hf.length_mem h0, if_pos (by omega), Frame.mem, if_neg h0,
    List.drop_append_of_le_length (by omega),
    List.take_append_of_le_length (by rw [List.length_drop]; omega)]

theorem padCheck_eq (fatal : Bool) {p : UInt8} {r : Bytes} (hd : f.data = p :: r) :
    padCheck fatal f = if f.size ≤ p.toNat then
      (if fatal then .error .fatal else .ok (0, 0)) else .ok (UInt32.ofNat f.size, p) := by
  have h0 : f.size ≠ 0 := by rw [← hf.data, hd]; simp
  have hle : UInt32.ofNat f.size ≤ p.toUInt32 ↔ f.size ≤ p.toNat := by
    rw [UInt32.le_iff_toNat_le, hf.toNat_size, UInt8.toNat_toUInt32]
  simp only [padCheck, Frame.mem, if_neg h0, hd, List.cons_append, load, List.getElem?_cons_zero,
    ok_bind, hle]
  split
  · cases fatal <;> rfl
  · rfl

/-- A padding that is too long makes the size wrap. -/
theorem dataRange_padded (fatal : Bool) {p : UInt8} {r : Bytes}
    (hp : f.flags &&& flagPadded ≠ 0) (hd : f.data = p :: r) :
    dataRange fatal f = if f.size ≤ p.toNat then
      (if fatal then .error .fatal else .ok (0xffffffff, 1))
      else .ok (UInt32.ofNat (f.size - (p.toNat + 1)), 1) := by
  rw [dataRange, if_pos hp, padCheck_eq hf fatal hd]
  split
  · cases fatal <;> rfl
  · rename_i hlt
    have hsub : UInt32.ofNat f.size - (p.toUInt32 + 1) =
        UInt32.ofNat (f.size - (p.toNat + 1)) := by
      have := hf.size
      have := p.toNat_lt
      apply UInt32.toNat_inj.mp
      rw [UInt32.toNat_sub_of_le, hf.toNat_size]
      all_goals simp [UInt32.le_iff_toNat_le, hf.toNat_size]
      all_goals omega
    rw [ok_bind]
    simp only [hsub]
    rfl

omit hf in
/-- A padded frame without a byte: the length is read through a null pointer. -/
theorem dataRange_null (hp : f.flags &&& flagPadded ≠ 0) (h0 : f.size = 0) :
    dataRange fatal f = .error .ub := by
  simp [dataRange, hp, padCheck, Frame.mem, h0, load]

omit hf in
theorem dataRange_plain (hp : f.flags &&& flagPadded = 0) :
    dataRange fatal f = .ok (UInt32.ofNat f.size, 0) := by
  simp [dataRange, hp]

/-- What is appended is part of the frame. -/
theorem parseDataBody_le {b b' : DataBody} (h : parseDataBody fatal b f = .ok b') :
    ∃ t, b'.text = b.text ++ t ∧ t.length ≤ f.size := by
  obtain ⟨⟨size, off⟩, hr, h⟩ := bind_eq_ok.mp h
  simp only at h
  split at h
  · obtain ⟨-, h⟩ := check_bind_eq_ok.mp h
    cases h
    exact ⟨[], by simp, by simp⟩
  · rename_i hs
    obtain ⟨d, hd, h⟩ := bind_eq_ok.mp h
    cases h
    refine ⟨d, by simp, ?_⟩
    unfold loads at hd
    split at hd
    · rename_i hle
      cases hd
      rw [List.length_take, List.length_drop]
      by_cases hp : f.flags &&& flagPadded = 0
      · rw [dataRange_plain hp] at hr
        cases hr
        rw [hf.toNat_size]
        exact Nat.min_le_left _ _
      · have h0 : f.size ≠ 0 := by
          intro h0
          rw [dataRange_null hp h0] at hr
          cases hr
        rw [hf.length_mem h0]
        have hoff : off = 1 := by
          rw [dataRange, if_pos hp] at hr
          obtain ⟨_, -, hr⟩ := bind_eq_ok.mp hr
          cases hr
          rfl
        omega
    · cases hd

end Arrived

/-- The bodies agree if both models take the same part of the frame. -/
theorem parseData_of_range {e : WinEnd} {s : WinStream} {f : Frame} {b : DataBody} {size : UInt32}
    {off : Nat} (hf : f.Arrived) (hb : b.text = s.body)
    (hr : dataRange e.fatal f = .ok (size, off))
    (hs : dataSpan e.fatal f = .ok (size.toNat, f.data.drop off))
    (hle : off + size.toNat ≤ f.size) :
    (parseData e s f).map (fun p => p.2.body) = (parseDataBody e.fatal b f).map DataBody.text := by
  have hz : size.toNat = 0 ↔ size = 0 := by
    rw [← UInt32.toNat_inj]
    rfl
  simp only [parseData, parseDataBody, hr, hs, ok_bind, hz]
  by_cases h0 : size = 0
  · rw [if_pos h0, if_pos h0]
    cases hc : decide (f.size = 0) with
    | false => rfl
    | true => exact congrArg Except.ok hb.symm
  · have hne : f.size ≠ 0 := by
      intro he
      have := hz.not.mpr h0
      omega
    rw [if_neg h0, if_neg h0, hf.loads_eq hne hle, ok_bind]
    simp only [pure_res, Except.map, DataBody.text_append, hb]

/-- The model of the flow-control windows has the same body. -/
theorem parseData_body {e : WinEnd} {s : WinStream} {f : Frame} {b : DataBody} (hf : f.Arrived)
    (hb : b.text = s.body) :
    (parseData e s f).map (fun p => p.2.body) = (parseDataBody e.fatal b f).map DataBody.text := by
  by_cases hp : f.flags &&& flagPadded = 0
  · refine parseData_of_range hf hb (dataRange_plain hp) ?_ (by rw [hf.toNat_size]; omega)
    rw [hf.toNat_size]
    simp [dataSpan, hp]
  · cases hd : f.data with
    | nil =>
      have h0 : f.size = 0 := by rw [← hf.data, hd]; rfl
      have hs : dataSpan e.fatal f = .error .ub := by simp [dataSpan, hp, Frame.mem, h0, load]
      simp only [parseData, parseDataBody, dataRange_null hp h0, hs, error_bind]
      rfl
    | cons p r =>
      have h0 : f.size ≠ 0 := by rw [← hf.data, hd]; simp
      have hs : dataSpan e.fatal f = if f.size ≤ p.toNat then
          .error (if e.fatal then .fatal else .ub) else .ok (f.size - (p.toNat + 1), r) := by
        simp [dataSpan, hp, Frame.mem, h0, load, hd]
      have hr := dataRange_padded hf e.fatal hp hd
      by_cases hle : f.size ≤ p.toNat
      · rw [if_pos hle] at hr hs
        cases hfat : e.fatal with
        | true =>
          simp only [hfat, if_true] at hr hs
          simp only [parseData, parseDataBody, hfat, hr, hs, error_bind]
          rfl
        | false =>
          -- 2^32 - 1 bytes of a frame that has at most 255
          have hp8 := p.toNat_lt
          have hout : loads f.mem 1 (0xffffffff : UInt32).toNat = .error .ub := by
            rw [loads, hf.length_mem h0, if_neg]
            simp
            omega
          simp only [hfat, if_false, Bool.false_eq_true] at hr hs
          simp only [parseData, parseDataBody, hfat, hr, hs, error_bind, ok_bind, hout]
          rfl
      · rw [if_neg hle] at hr hs
        have hlt := hf.size
        have hnat : (UInt32.ofNat (f.size - (p.toNat + 1))).toNat = f.size - (p.toNat + 1) := by
          rw [UInt32.toNat_ofNat', Nat.mod_eq_of_lt (by omega)]
        refine parseData_of_range hf hb hr ?_ (by rw [hnat]; omega)
        rw [hs, hnat, hd]
        rfl

/-! ## Frames of the tx commands -/

/-- The commands that send `DATA`: `txdata`, and `txreq` and `txresp` with a body. -/
inductive DataCmd where
  | txdata (body : Bytes) (pad : Option { p : Bytes // p.length ≤ 255 }) (strEnd : Bool)
  | tx11obj (body : Bytes)

def DataCmd.data : DataCmd → Bytes
  | .txdata body _ _ => body
  | .tx11obj body => body

def DataCmd.pad : DataCmd → Option Bytes
  | .txdata _ pad _ => pad.map Subtype.val
  | .tx11obj _ => none

def DataCmd.frame (id : Nat) : DataCmd → Res Frame
  | .txdata body pad strEnd => txdataFrame id body (pad.map Subtype.val) strEnd
  | .tx11obj body => .ok (bodyFrame id body)

def builtFrames (id : Nat) : List DataCmd → Res (List Frame)
  | [] => .ok []
  | c :: cs => do
    let f ← c.frame id
    let fs ← builtFrames id cs
    return f :: fs

/-- The frame has data if it has padding, and its size is a `uint32_t`. -/
structure DataCmd.Fits (c : DataCmd) : Prop where
  data : c.pad ≠ none → c.data ≠ []
  size : c.data.length + padSize c.pad < 2 ^ 32

theorem DataCmd.pad_le (c : DataCmd) : padSize c.pad ≤ 256 := by
  cases c with
  | txdata body pad strEnd =>
    cases pad with
    | none => simp [DataCmd.pad, padSize]
    | some p =>
      have := p.2
      simp only [DataCmd.pad, Option.map_some, padSize]
      omega
  | tx11obj body => simp [DataCmd.pad, padSize]

/-- Every command builds a frame. -/
theorem DataCmd.frame_ok (c : DataCmd) (id : Nat) : ∃ f, c.frame id = .ok f ∧ f.Arrived ∧
    f.size = (c.data.length + padSize c.pad) % 2 ^ 32 := by
  cases c with
  | txdata body pad strEnd =>
    cases pad with
    | none =>
      refine ⟨_, rfl, ⟨?_, ?_⟩, ?_⟩
      · simp [bodyFrame, Nat.mod_le]
      · simp only [bodyFrame]
        omega
      · simp [bodyFrame, DataCmd.data, DataCmd.pad, padSize]
    | some p =>
      have hp := p.2
      have hfat : decide (255 < p.1.length) = false := by simpa using hp
      refine ⟨_, by simp only [DataCmd.frame, txdataFrame, Option.map_some, hfat]; rfl,
        ⟨?_, ?_⟩, ?_⟩
      · simp [length_paddedData, Nat.mod_le]
      · simp only
        omega
      · simp only [DataCmd.data, DataCmd.pad, padSize, Option.map_some]
        omega
  | tx11obj body =>
    refine ⟨_, rfl, ⟨?_, ?_⟩, ?_⟩
    · simp [bodyFrame, Nat.mod_le]
    · simp only [bodyFrame]
      omega
    · simp [bodyFrame, DataCmd.data, DataCmd.pad, padSize]

/-- A frame whose size does not wrap has the padding length, the data and the padding. -/
theorem DataCmd.frame_eq {c : DataCmd} {id : Nat} {f : Frame} (h : c.frame id = .ok f)
    (hs : c.data.length + padSize c.pad < 2 ^ 32) :
    (c.pad = none → f.flags &&& flagPadded = 0 ∧ f.data = c.data) ∧
    ∀ pad, c.pad = some pad → f.flags &&& flagPadded ≠ 0 ∧
      f.data = [UInt8.ofNat pad.length] ++ c.data ++ pad := by
  have hplain : ∀ b : Bool, flagIf b flagEndStream &&& flagPadded = 0 := by decide
  have hpadded : ∀ b : Bool, (flagIf b flagEndStream ||| flagPadded) &&& flagPadded ≠ 0 := by decide
  cases c with
  | txdata body pad strEnd =>
    have he : txdataFrame id body (pad.map Subtype.val) strEnd =
        dataFrame id body (pad.map Subtype.val) strEnd := txdataFrame_eq id strEnd hs
    rw [DataCmd.frame, he] at h
    cases pad with
    | none =>
      cases h
      refine ⟨fun _ => ⟨hplain strEnd, rfl⟩, fun pad hp => ?_⟩
      cases hp
    | some p =>
      obtain ⟨-, h⟩ := fatalIf_bind_eq_ok.mp h
      cases h
      refine ⟨fun hp => ?_, fun pad hp => ?_⟩
      · cases hp
      · cases hp
        exact ⟨hpadded strEnd, rfl⟩
  | tx11obj body =>
    cases h
    have h0 : body.length % 2 ^ 32 = body.length := Nat.mod_eq_of_lt hs
    refine ⟨fun _ => ⟨hplain true, ?_⟩, fun pad hp => ?_⟩
    · simp only [bodyFrame, h0, List.take_length]
      rfl
    · cases hp

/-- The data of a padded frame. -/
theorem DataCmd.padded_range {c : DataCmd} {id : Nat} {f : Frame} {pad : Bytes}
    (h : c.frame id = .ok f) (hs : c.data.length + padSize c.pad < 2 ^ 32) (hp : c.pad = some pad)
    (fatal : Bool) : dataRange fatal f = .ok (UInt32.ofNat c.data.length, 1) := by
  obtain ⟨f1, h1, hf, hsize⟩ := c.frame_ok id
  cases h.symm.trans h1
  obtain ⟨hflag, hd⟩ := (DataCmd.frame_eq h hs).2 pad hp
  have hle := c.pad_le
  rw [hp] at hs hsize hle
  simp only [padSize] at hs hsize hle
  rw [Nat.mod_eq_of_lt hs] at hsize
  have hbyte : (UInt8.ofNat pad.length).toNat = pad.length := by
    rw [UInt8.toNat_ofNat', Nat.mod_eq_of_lt (by omega)]
  rw [dataRange_padded hf fatal hflag (p := UInt8.ofNat pad.length) (r := c.data ++ pad)
    (by simpa using hd), hbyte, if_neg (by omega)]
  have hlen : f.size - (pad.length + 1) = c.data.length := by omega
  rw [hlen]

/-- A frame that fits is appended whole. -/
theorem DataCmd.Fits.step {c : DataCmd} (hc : c.Fits) {id : Nat} {f : Frame}
    (h : c.frame id = .ok f) (fatal : Bool) (b : DataBody) :
    ∃ b', parseDataBody fatal b f = .ok b' ∧ b'.text = b.text ++ c.data := by
  obtain ⟨f1, h1, hf, hsize⟩ := c.frame_ok id
  cases h.symm.trans h1
  rw [Nat.mod_eq_of_lt hc.size] at hsize
  have hsz := hc.size
  have hn : (UInt32.ofNat c.data.length).toNat = c.data.length := by
    rw [UInt32.toNat_ofNat', Nat.mod_eq_of_lt (by omega)]
  have hz : UInt32.ofNat c.data.length = 0 ↔ c.data = [] := by
    rw [← UInt32.toNat_inj, hn]
    exact List.length_eq_zero_iff
  cases hp : c.pad with
  | none =>
    obtain ⟨hflag, hd⟩ := (DataCmd.frame_eq h hc.size).1 hp
    rw [hp, padSize, Nat.add_zero] at hsize
    rw [parseDataBody, dataRange_plain hflag, ok_bind, hsize]
    simp only [hz]
    by_cases h0 : c.data = []
    · rw [if_pos h0]
      refine ⟨b, ?_, by simp [h0]⟩
      simp [h0, check]
    · rw [if_neg h0, hn, hf.loads_eq (by rw [hsize]; simpa using h0) (by omega), hd]
      exact ⟨_, rfl, by simp⟩
  | some pad =>
    have h0 : c.data ≠ [] := hc.data (by rw [hp]; simp)
    rw [hp, padSize] at hsize
    rw [parseDataBody, DataCmd.padded_range h hc.size hp fatal, ok_bind]
    simp only [hz]
    obtain ⟨-, hd⟩ := (DataCmd.frame_eq h hc.size).2 pad hp
    rw [if_neg h0, hn, hf.loads_eq (by omega) (by omega), hd]
    exact ⟨_, rfl, by simp⟩

/-- A frame that does not fit is refused, or loses a part of its data. -/
theorem DataCmd.step_of_not_fits {c : DataCmd} (hc : ¬ c.Fits) {id : Nat} {f : Frame}
    (h : c.frame id = .ok f) {fatal : Bool} {b b' : DataBody}
    (hr : parseDataBody fatal b f = .ok b') :
    ∃ t, b'.text = b.text ++ t ∧ t.length < c.data.length := by
  obtain ⟨f1, h1, hf, hsize⟩ := c.frame_ok id
  cases h.symm.trans h1
  by_cases hs : c.data.length + padSize c.pad < 2 ^ 32
  · cases hp : c.pad with
    | none => exact absurd ⟨fun hne => absurd hp hne, hs⟩ hc
    | some pad =>
      have h0 : c.data = [] := by
        by_contra h0
        exact hc ⟨fun _ => h0, hs⟩
      rw [parseDataBody, DataCmd.padded_range h hs hp fatal, ok_bind, h0] at hr
      obtain ⟨hz, -⟩ := check_bind_eq_ok.mp hr
      rw [Nat.mod_eq_of_lt hs, hp, padSize] at hsize
      have hz : f.size = 0 := of_decide_eq_true hz
      omega
  · obtain ⟨t, ht, hle⟩ := parseDataBody_le hf hr
    have := c.pad_le
    exact ⟨t, ht, by omega⟩

/-! ## Whole bodies -/

/-- The frames of the commands, parsed in order, leave the body with all their data. -/
def Reassembled (fatal : Bool) (id : Nat) (b : DataBody) (cs : List DataCmd) : Prop :=
  ∃ fs b', builtFrames id cs = .ok fs ∧ run (parseDataBody fatal) b fs = .ok b' ∧
    b'.text = b.text ++ cs.flatMap DataCmd.data ∧
    b'.bodylen = b.bodylen + (cs.flatMap DataCmd.data).length

theorem builtFrames_cons {id : Nat} {c : DataCmd} {cs : List DataCmd} {fs : List Frame}
    (h : builtFrames id (c :: cs) = .ok fs) :
    ∃ f gs, c.frame id = .ok f ∧ builtFrames id cs = .ok gs ∧ fs = f :: gs := by
  obtain ⟨f, hf, h⟩ := bind_eq_ok.mp h
  obtain ⟨gs, hgs, h⟩ := bind_eq_ok.mp h
  cases h
  exact ⟨f, gs, hf, hgs, rfl⟩

theorem run_fits (fatal : Bool) (id : Nat) : ∀ (cs : List DataCmd) (b : DataBody),
    (∀ c ∈ cs, c.Fits) → ∃ fs b', builtFrames id cs = .ok fs ∧
      run (parseDataBody fatal) b fs = .ok b' ∧ b'.text = b.text ++ cs.flatMap DataCmd.data := by
  intro cs
  induction cs with
  | nil =>
    intro b _
    exact ⟨[], b, rfl, rfl, by simp⟩
  | cons c cs ih =>
    intro b hc
    obtain ⟨f, hf, -⟩ := c.frame_ok id
    obtain ⟨b1, h1, ht1⟩ := (hc c List.mem_cons_self).step hf fatal b
    obtain ⟨fs, b2, hfs, h2, ht2⟩ := ih b1 fun d hd => hc d (List.mem_cons_of_mem c hd)
    refine ⟨f :: fs, b2, ?_, ?_, ?_⟩
    · rw [builtFrames, hf, ok_bind, hfs]
      rfl
    · rw [run_cons, h1, ok_bind, h2]
    · rw [ht2, ht1, List.flatMap_cons, List.append_assoc]

/-- A run adds at most the data, and all of it only if every frame fits. -/
theorem fits_of_run {fatal : Bool} {id : Nat} : ∀ (cs : List DataCmd) (b : DataBody)
    (fs : List Frame) (b' : DataBody), builtFrames id cs = .ok fs →
    run (parseDataBody fatal) b fs = .ok b' →
    ∃ t, b'.text = b.text ++ t ∧ t.length ≤ (cs.flatMap DataCmd.data).length ∧
      (t.length = (cs.flatMap DataCmd.data).length → ∀ c ∈ cs, c.Fits) := by
  intro cs
  induction cs with
  | nil =>
    intro b fs b' hfs hr
    cases hfs
    cases hr
    exact ⟨[], by simp, by simp, fun _ c hc => nomatch hc⟩
  | cons c cs ih =>
    intro b fs b' hfs hr
    obtain ⟨f, gs, hf, hgs, rfl⟩ := builtFrames_cons hfs
    obtain ⟨b1, h1, hr⟩ := bind_eq_ok.mp hr
    obtain ⟨u, hu, hule, hufits⟩ := ih b1 gs b' hgs hr
    rw [List.flatMap_cons, List.length_append]
    by_cases hc : c.Fits
    · obtain ⟨b2, h2, ht2⟩ := hc.step hf fatal b
      cases h1.symm.trans h2
      refine ⟨c.data ++ u, by rw [hu, ht2, List.append_assoc], by simpa using hule, fun he => ?_⟩
      have hlen : u.length = (cs.flatMap DataCmd.data).length := by simpa using he
      exact List.forall_mem_cons.mpr ⟨hc, hufits hlen⟩
    · obtain ⟨t, ht, hlt⟩ := DataCmd.step_of_not_fits hc hf h1
      refine ⟨t ++ u, by rw [hu, ht, List.append_assoc], ?_, fun he => ?_⟩
      · rw [List.length_append]
        omega
      · rw [List.length_append] at he
        omega

theorem reassembled_iff (fatal : Bool) (id : Nat) (b : DataBody) (cs : List DataCmd) :
    Reassembled fatal id b cs ↔ ∀ c ∈ cs, c.Fits := by
  constructor
  · rintro ⟨fs, b', hfs, hr, ht, -⟩
    obtain ⟨t, ht', -, hfits⟩ := fits_of_run cs b fs b' hfs hr
    exact hfits (congrArg List.length (List.append_cancel_left (ht'.symm.trans ht)))
  · intro hc
    obtain ⟨fs, b', hfs, hr, ht⟩ := run_fits fatal id cs b hc
    refine ⟨fs, b', hfs, hr, ht, ?_⟩
    rw [← b'.length_text, ht, List.length_append, b.length_text]

/-! ## Frames with any payload -/

/-- What is appended is at most the frame: the padding length is read from the frame, the
subtraction does not wrap, and the range lies in the frame. -/
structure Bounded (fatal : Bool) (b : DataBody) (f : Frame) : Prop where
  read : dataRange fatal f ≠ .error .ub
  noWrap : f.flags &&& flagPadded ≠ 0 → ∀ size p, padCheck fatal f = .ok (size, p) →
    p.toNat + 1 ≤ size.toNat
  range : ∀ size off, dataRange fatal f = .ok (size, off) → off + size.toNat ≤ f.size
  appended : ∀ b', parseDataBody fatal b f = .ok b' → b'.bodylen ≤ b.bodylen + f.size

theorem bounded_iff {f : Frame} (hf : f.Arrived) (fatal : Bool) (b : DataBody) :
    Bounded fatal b f ↔ (f.flags &&& flagPadded ≠ 0 →
      f.size ≠ 0 ∧ (fatal = true ∨ (f.data.headD 0).toNat < f.size)) := by
  have happ : ∀ b', parseDataBody fatal b f = .ok b' → b'.bodylen ≤ b.bodylen + f.size := by
    intro b' hb'
    obtain ⟨t, ht, hle⟩ := parseDataBody_le hf hb'
    rw [← b'.length_text, ht, List.length_append, b.length_text]
    omega
  by_cases hp : f.flags &&& flagPadded = 0
  · refine iff_of_true ⟨?_, fun h => absurd hp h, ?_, happ⟩ fun h => absurd hp h
    · rw [dataRange_plain hp]
      exact fun he => nomatch he
    · intro size off h
      rw [dataRange_plain hp] at h
      cases h
      rw [hf.toNat_size]
      omega
  · cases hd : f.data with
    | nil =>
      have h0 : f.size = 0 := by rw [← hf.data, hd]; rfl
      exact iff_of_false (fun hb => hb.read (dataRange_null hp h0)) fun h => (h hp).1 h0
    | cons p r =>
      have h0 : f.size ≠ 0 := by rw [← hf.data, hd]; simp
      have hr := dataRange_padded hf fatal hp hd
      have hc := padCheck_eq hf fatal hd
      by_cases hle : f.size ≤ p.toNat
      · rw [if_pos hle] at hr hc
        cases fatal with
        | true =>
          refine iff_of_true ⟨?_, fun _ size q h => ?_, fun size off h => ?_, happ⟩
            fun _ => ⟨h0, .inl rfl⟩
          · rw [hr]
            exact fun he => nomatch he
          · rw [hc] at h
            cases h
          · rw [hr] at h
            cases h
        | false =>
          refine iff_of_false (fun hb => ?_) fun h => ?_
          · have := hb.noWrap hp 0 0 hc
            exact absurd this (by decide)
          · rcases (h hp).2 with hfat | hlt
            · cases hfat
            · exact absurd hlt (by simpa using hle)
      · rw [if_neg hle] at hr hc
        refine iff_of_true ⟨?_, fun _ size q h => ?_, fun size off h => ?_, happ⟩
          fun _ => ⟨h0, .inr (by simpa using hle)⟩
        · rw [hr]
          exact fun he => nomatch he
        · rw [hc] at h
          cases h
          rw [hf.toNat_size]
          omega
        · rw [hr] at h
          cases h
          have := hf.size
          rw [UInt32.toNat_ofNat', Nat.mod_eq_of_lt (by omega)]
          omega

/-- For every sequence of `DATA` frames that the commands build, the body is the concatenation of
their data exactly if no padded one is without data (and no size wraps); and for every frame that
arrives, what is appended is bounded by its size exactly if a padded one has a byte and, unless a
wrong padding is fatal, more bytes than its padding length says. -/
theorem data_reassembled_iff (fatal : Bool) (id : Nat) (b : DataBody) :
    (∀ cs, Reassembled fatal id b cs ↔
      ∀ c ∈ cs, (c.pad ≠ none → c.data ≠ []) ∧ c.data.length + padSize c.pad < 2 ^ 32) ∧
    ∀ f : Frame, f.Arrived → (Bounded fatal b f ↔ (f.flags &&& flagPadded ≠ 0 →
      f.size ≠ 0 ∧ (fatal = true ∨ (f.data.headD 0).toNat < f.size))) := by
  refine ⟨fun cs => ?_, fun f hf => bounded_iff hf fatal b⟩
  rw [reassembled_iff]
  exact forall₂_congr fun c _ => ⟨fun h => ⟨h.data, h.size⟩, fun h => ⟨h.1, h.2⟩⟩

/-- Padding, the body of a response, and an empty frame at the end. -/
theorem data_reassembled_padded :
    Reassembled true 1 .empty [.txdata (ascii "ab") (some ⟨ascii "xyz", by decide⟩) false,
      .tx11obj (ascii "c"), .txdata [] none true] :=
  ((data_reassembled_iff true 1 .empty).1 _).mpr (by decide)

/-- A padded frame without data, and a padding length that is not smaller than the frame. -/
theorem padded_empty_asserts :
    (∃ f, (DataCmd.txdata [] (some ⟨ascii "pad", by decide⟩) true).frame 1 = .ok f ∧
      f.data = [3, 112, 97, 100] ∧ parseDataBody true .empty f = .error .assert) ∧
    dataRange false { size := 1, stid := 1, type := typeData, flags := flagPadded, data := [5] } =
      .ok (0xffffffff, 1) :=
  ⟨⟨_, rfl, rfl, rfl⟩, rfl⟩

end Http2
end VTest
