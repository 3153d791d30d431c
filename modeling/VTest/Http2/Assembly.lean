import VTest.Http2.RxLoop

/-!
# VTest.Http2.Assembly

Which frames a header block is put together from.

`Blocks l bs` reads the blocks off a list of frames: a `HEADERS` or `PUSH_PROMISE` frame, the
`CONTINUATION` frames of its stream right behind it up to the first `END_HEADERS`, and what
`parse_hdr` extracts from them, one behind the other. `receive_frame` hands just these blocks to
`decode_hdr` (`receiveOne_assembled`), and stops at a frame that does not fit in.

The local `expect_cont` has the id of the stream whose block is open, and 0 for no block: it does
not see a block that is open on stream 0.
-/

namespace VTest
namespace Http2

open Hpack

/-! ## Blocks in a list of frames -/

def Frame.Opens (f : Frame) : Prop := f.type = typeHeaders ∨ f.type = typePushPromise

/-- A `CONTINUATION` of stream `id`. -/
def Frame.ContOf (id : Nat) (f : Frame) : Prop := f.type = typeContinuation ∧ f.stid = id

/-- `END_HEADERS` is set. -/
def Frame.Ends (f : Frame) : Prop := f.flags &&& flagEndHeaders ≠ 0

/-- What `parse_hdr` takes out of a frame. -/
def fragment (fatal : Bool) (f : Frame) : Bytes :=
  match parseHdr fatal [] 0 f [] with
  | .ok p => p.2.2
  | .error _ => []

/-- A frame that opens a block, and continuations of its stream. -/
def Chain (h : Frame) (cs : List Frame) : Prop := h.Opens ∧ ∀ c ∈ cs, c.ContOf h.stid

/-- The frames of a block: `END_HEADERS` is set on the last one only. -/
def HeaderBlock (blk : List Frame) : Prop :=
  ∃ h cs, blk = h :: cs ∧ Chain h cs ∧ (∀ x ∈ blk.dropLast, ¬x.Ends) ∧
    ∃ e, blk.getLast? = some e ∧ e.Ends

/-- The frames of a block that has not ended. -/
def Unfinished (h : Frame) (cs : List Frame) : Prop := Chain h cs ∧ ∀ x ∈ h :: cs, ¬x.Ends

/-- The header blocks of a list of frames. -/
inductive Blocks (fatal : Bool) : List Frame → List Bytes → Prop where
  | nil : Blocks fatal [] []
  | other {l : List Frame} {bs : List Bytes} {f : Frame} (hb : Blocks fatal l bs)
      (ho : ¬f.Opens) (hc : f.type ≠ typeContinuation) : Blocks fatal (l ++ [f]) bs
  | block {l blk : List Frame} {bs : List Bytes} (hb : Blocks fatal l bs) (h : HeaderBlock blk) :
      Blocks fatal (l ++ blk) (bs ++ [blk.flatMap (fragment fatal)])

theorem Unfinished.open {f : Frame} (ho : f.Opens) (he : ¬f.Ends) : Unfinished f [] :=
  ⟨⟨ho, by simp⟩, by simpa using he⟩

theorem Unfinished.cont {h f : Frame} {cs : List Frame} (hu : Unfinished h cs)
    (hc : f.ContOf h.stid) (he : ¬f.Ends) : Unfinished h (cs ++ [f]) := by
  obtain ⟨⟨ho, hcs⟩, hne⟩ := hu
  refine ⟨⟨ho, fun c hm => ?_⟩, fun x hx => ?_⟩
  · rcases List.mem_append.mp hm with hm | hm
    · exact hcs c hm
    · exact List.mem_singleton.mp hm ▸ hc
  · rw [← List.cons_append] at hx
    rcases List.mem_append.mp hx with hx | hx
    · exact hne x hx
    · exact List.mem_singleton.mp hx ▸ he

theorem headerBlock_single {f : Frame} (ho : f.Opens) (he : f.Ends) : HeaderBlock [f] :=
  ⟨f, [], rfl, ⟨ho, by simp⟩, by simp, f, rfl, he⟩

theorem Unfinished.close {h f : Frame} {cs : List Frame} (hu : Unfinished h cs)
    (hc : f.ContOf h.stid) (he : f.Ends) : HeaderBlock (h :: (cs ++ [f])) := by
  obtain ⟨⟨ho, hcs⟩, hne⟩ := hu
  refine ⟨h, cs ++ [f], rfl, ⟨ho, fun c hm => ?_⟩, fun x hx => ?_, f, ?_, he⟩
  · rcases List.mem_append.mp hm with hm | hm
    · exact hcs c hm
    · exact List.mem_singleton.mp hm ▸ hc
  · rw [← List.cons_append, List.dropLast_concat] at hx
    exact hne x hx
  · rw [← List.cons_append, List.getLast?_concat]

/-! ## What the parsers leave alone -/

theorem hdrFields_any_streams {streams : List PrioStream} {k shift : Nat} {f : Frame}
    {q : Nat × List PrioStream × Frame} (h : hdrFields streams k f shift = .ok q) :
    ∃ st, hdrFields [] 0 f shift = .ok (q.1, st, q.2.2) := by
  unfold hdrFields at h ⊢
  split at h
  · rename_i hc
    rw [if_pos hc]
    obtain ⟨n, hn, h⟩ := bind_eq_ok.mp h
    obtain ⟨w, hw, h⟩ := bind_eq_ok.mp h
    cases h
    rw [hn, ok_bind, hw, ok_bind]
    exact ⟨_, rfl⟩
  · rename_i hc
    rw [if_neg hc]
    split at h
    · rename_i hp
      rw [if_pos hp]
      obtain ⟨n, hn, h⟩ := bind_eq_ok.mp h
      cases h
      rw [hn, ok_bind]
      exact ⟨_, rfl⟩
    · rename_i hp
      rw [if_neg hp]
      cases h
      exact ⟨_, rfl⟩

theorem hdrPadding_sent {fatal : Bool} {f : Frame} {q : Nat × Nat × Frame}
    (h : hdrPadding fatal f = .ok q) : q.2.2.sent = f.sent := by
  unfold hdrPadding at h
  split at h
  · obtain ⟨b, -, h⟩ := bind_eq_ok.mp h
    split at h
    · split at h
      · cases h
      · cases h
        rfl
    · cases h
      rfl
  · cases h
    rfl

theorem hdrFields_sent {streams : List PrioStream} {k shift : Nat} {f : Frame}
    {q : Nat × List PrioStream × Frame} (h : hdrFields streams k f shift = .ok q) :
    q.2.2.sent = f.sent := by
  unfold hdrFields at h
  split at h
  · obtain ⟨n, -, h⟩ := bind_eq_ok.mp h
    obtain ⟨w, -, h⟩ := bind_eq_ok.mp h
    cases h
    rfl
  split at h
  · obtain ⟨n, -, h⟩ := bind_eq_ok.mp h
    cases h
    rfl
  · cases h
    rfl

theorem hdrAppend_eq_ok {f : Frame} {vsb v : Bytes} {size shift : Nat}
    (h : hdrAppend f vsb size shift = .ok v) :
    ∃ frag, v = vsb ++ frag ∧ hdrAppend f [] size shift = .ok frag := by
  unfold hdrAppend at h ⊢
  split at h
  · cases h
  · rename_i hc
    cases h
    exact ⟨_, rfl, by rw [if_neg hc, List.nil_append]⟩

/-- `parse_hdr` appends the fragment of the frame. -/
theorem parseHdr_fragment {fatal : Bool} {streams : List PrioStream} {k : Nat} {f : Frame}
    {vsb : Bytes} {p : List PrioStream × Frame × Bytes}
    (h : parseHdr fatal streams k f vsb = .ok p) :
    p.2.2 = vsb ++ fragment fatal f ∧ p.2.1.sent = f.sent := by
  unfold parseHdr at h
  obtain ⟨a, ha, h⟩ := bind_eq_ok.mp h
  obtain ⟨b, hb, h⟩ := bind_eq_ok.mp h
  obtain ⟨v, hv, h⟩ := bind_eq_ok.mp h
  cases h
  obtain ⟨st, hst⟩ := hdrFields_any_streams hb
  obtain ⟨frag, rfl, hfrag⟩ := hdrAppend_eq_ok hv
  have : parseHdr fatal [] 0 f [] = .ok (st, b.2.2, frag) := by
    simp only [parseHdr, ha, ok_bind, hst, hfrag, pure_res]
  exact ⟨by rw [fragment, this], (hdrFields_sent hb).trans (hdrPadding_sent ha)⟩

/-- What a step leaves alone that is no part of a header block. -/
structure SameBlock (r r' : Rx) : Prop where
  asm : r'.asm = r.asm
  handed : r'.handed = r.handed
  fatal : r'.win.fatal = r.win.fatal

theorem SameBlock.refl (r : Rx) : SameBlock r r := ⟨rfl, rfl, rfl⟩

/-- The streams and their queues. -/
structure SameQueues (e e' : WinEnd) : Prop where
  isSome : ∀ id, (e'.streams id).isSome = (e.streams id).isSome
  fq : ∀ id s, e.streams id = some s → ∃ s', e'.streams id = some s' ∧ s'.fq = s.fq

theorem SameQueues.refl (e : WinEnd) : SameQueues e e := ⟨fun _ => rfl, fun _ s h => ⟨s, h, rfl⟩⟩

theorem SameQueues.setStream {e e' : WinEnd} {id : Nat} {s s' : WinStream}
    (he : e'.streams = e.streams) (hs : e.streams id = some s) (hq : s'.fq = s.fq) :
    SameQueues e (e'.setStream id s') := by
  refine ⟨fun i => ?_, fun i t ht => ?_⟩
  · by_cases hi : i = id
    · subst hi
      simp [WinEnd.setStream, hs]
    · simp [WinEnd.setStream, hi, he]
  · by_cases hi : i = id
    · subst hi
      cases hs.symm.trans ht
      exact ⟨s', by simp [WinEnd.setStream], hq⟩
    · exact ⟨t, by simp [WinEnd.setStream, hi, he, ht], rfl⟩

theorem parseData_same {e : WinEnd} {s : WinStream} {f : Frame} {p : WinEnd × WinStream}
    (h : parseData e s f = .ok p) :
    p.1.fatal = e.fatal ∧ p.1.streams = e.streams ∧ p.2.fq = s.fq := by
  unfold parseData at h
  obtain ⟨a, -, h⟩ := bind_eq_ok.mp h
  simp only at h
  split at h
  · obtain ⟨-, h⟩ := check_bind_eq_ok.mp h
    cases h
    exact ⟨rfl, rfl, rfl⟩
  · cases h
    exact ⟨rfl, rfl, rfl⟩

theorem handleOther_same {r : Rx} {s : WinStream} {f : Frame} {p : Rx × Frame}
    (hs : r.win.streams f.stid = some s) (h : handleOther r s f = .ok p) :
    SameBlock r p.1 ∧ SameQueues r.win p.1.win ∧ p.2.sent = f.sent := by
  unfold handleOther at h
  split at h
  · obtain ⟨q, hq, h⟩ := bind_eq_ok.mp h
    cases h
    obtain ⟨hf, hst, hfq⟩ := parseData_same hq
    exact ⟨⟨rfl, rfl, hf⟩, .setStream hst hs hfq, rfl⟩
  split at h
  · obtain ⟨-, h⟩ := fatalIf_bind_eq_ok.mp h
    obtain ⟨n, -, h⟩ := bind_eq_ok.mp h
    obtain ⟨w, -, h⟩ := bind_eq_ok.mp h
    cases h
    exact ⟨⟨rfl, rfl, rfl⟩, .refl _, rfl⟩
  split at h
  · obtain ⟨-, h⟩ := fatalIf_bind_eq_ok.mp h
    obtain ⟨n, -, h⟩ := bind_eq_ok.mp h
    cases h
    exact ⟨.refl r, .refl _, rfl⟩
  split at h
  · obtain ⟨-, h⟩ := fatalIf_bind_eq_ok.mp h
    obtain ⟨-, h⟩ := fatalIf_bind_eq_ok.mp h
    obtain ⟨enc, -, h⟩ := bind_eq_ok.mp h
    cases h
    exact ⟨⟨rfl, rfl, rfl⟩, .refl _, rfl⟩
  split at h
  · obtain ⟨-, h⟩ := fatalIf_bind_eq_ok.mp h
    cases h
    exact ⟨.refl r, .refl _, rfl⟩
  split at h
  · obtain ⟨-, h⟩ := fatalIf_bind_eq_ok.mp h
    obtain ⟨b, -, h⟩ := bind_eq_ok.mp h
    obtain ⟨-, h⟩ := fatalIf_bind_eq_ok.mp h
    obtain ⟨n, -, h⟩ := bind_eq_ok.mp h
    cases h
    exact ⟨.refl r, .refl _, rfl⟩
  split at h
  · obtain ⟨f', hf, h⟩ := bind_eq_ok.mp h
    cases h
    obtain ⟨-, hf⟩ := fatalIf_bind_eq_ok.mp hf
    obtain ⟨b, -, hf⟩ := bind_eq_ok.mp hf
    obtain ⟨-, hf⟩ := fatalIf_bind_eq_ok.mp hf
    obtain ⟨n, -, hf⟩ := bind_eq_ok.mp hf
    cases hf
    exact ⟨.refl r, .refl _, rfl⟩
  · cases h

theorem enqueue_same {r r' : Rx} {f : Frame} (h : r.enqueue f = .ok r') : SameBlock r r' := by
  obtain ⟨s, -, h⟩ := bind_eq_ok.mp h
  cases h
  exact ⟨rfl, rfl, rfl⟩

/-! ## Header frames -/

theorem openBlock_eq_ok {r r' : Rx} {hdrs : Nat × HdrSide} (h : openBlock r hdrs = .ok r') :
    r.asm.vsb = none ∧ r'.asm = { r.asm with hdrs := some hdrs, vsb := some [] } ∧
      r'.handed = r.handed ∧ r'.win = r.win := by
  obtain ⟨x, -, h⟩ := bind_eq_ok.mp h
  obtain ⟨hv, h⟩ := check_bind_eq_ok.mp h
  cases h
  exact ⟨Option.isNone_iff_eq_none.mp hv, rfl, rfl, rfl⟩

/-- A fragment ends the block, or leaves it open. -/
theorem addFragment_eq_ok {r : Rx} {f : Frame} {p : Rx × Frame} (h : addFragment r f = .ok p) :
    ∃ hdrs vsb, r.asm.hdrs = some hdrs ∧ r.asm.vsb = some vsb ∧
      p.1.win = r.win ∧ p.2.sent = f.sent ∧
      (f.Ends ∧ p.1.asm = {} ∧ p.1.handed = r.handed ++ [vsb ++ fragment r.win.fatal f] ∨
        ¬f.Ends ∧ p.1.asm = ⟨f.stid, some hdrs, some (vsb ++ fragment r.win.fatal f)⟩ ∧
          p.1.handed = r.handed) := by
  unfold addFragment at h
  split at h
  · rename_i hdrs vsb hh hv
    obtain ⟨q, hq, h⟩ := bind_eq_ok.mp h
    obtain ⟨hfrag, hsent⟩ := parseHdr_fragment hq
    refine ⟨hdrs, vsb, hh, hv, ?_⟩
    simp only at h
    split at h
    · rename_i he
      obtain ⟨r1, h1, h⟩ := bind_eq_ok.mp h
      cases h
      obtain ⟨d, -, h1⟩ := bind_eq_ok.mp h1
      cases h1
      exact ⟨rfl, hsent, .inl ⟨he, rfl, by rw [hfrag]⟩⟩
    · rename_i he
      cases h
      exact ⟨rfl, hsent, .inr ⟨he, by rw [hfrag], rfl⟩⟩
  · cases h

/-! ## The invariant -/

/-- The frames of the block that is open, if one is, and what the locals say about it. -/
inductive Pending (fatal : Bool) : List Frame → Asm → Prop where
  | closed : Pending fatal [] {}
  | opened {h : Frame} {cs : List Frame} {hdrs : Nat × HdrSide} (hu : Unfinished h cs) :
      Pending fatal (h :: cs) ⟨h.stid, some hdrs, some ((h :: cs).flatMap (fragment fatal))⟩

theorem Pending.open_spec {fatal : Bool} {h : Frame} {cs : List Frame} {asm : Asm}
    (hp : Pending fatal (h :: cs) asm) :
    Unfinished h cs ∧ asm.expectCont = h.stid ∧ asm.vsb.isSome = true := by
  cases hp with
  | opened hu => exact ⟨hu, rfl, rfl⟩

theorem Pending.eq_empty {fatal : Bool} {asm : Asm} (hp : Pending fatal [] asm) : asm = {} := by
  cases hp with
  | closed => rfl

theorem Pending.nil_of_vsb {fatal : Bool} {tail : List Frame} {asm : Asm}
    (hp : Pending fatal tail asm) (hv : asm.vsb = none) : tail = [] := by
  cases hp with
  | closed => rfl
  | opened hu => cases hv

/-- The frames that were received, cut into complete blocks and what is pending. -/
def Assembled (fatal : Bool) (l : List Frame) (r : Rx) : Prop :=
  r.win.fatal = fatal ∧ ∃ done tail, l = done ++ tail ∧ Blocks fatal done r.handed ∧
    Pending fatal tail r.asm

/-- While a block is open on stream 0, the next frame is a `CONTINUATION` of stream 0. -/
def ZeroOk (r : Rx) (f : Frame) : Prop :=
  r.asm.vsb.isSome = true → r.asm.expectCont = 0 → f.ContOf 0

variable {fatal : Bool} {l : List Frame} {r r' : Rx} {f : Frame}

theorem Assembled.of_same (h : Assembled fatal l r) (hs : SameBlock r r') :
    Assembled fatal l r' := by
  obtain ⟨hf, done, tail, rfl, hb, hp⟩ := h
  exact ⟨hs.fatal.trans hf, done, tail, rfl, hs.handed ▸ hb, hs.asm ▸ hp⟩

/-- `HEADERS` or `PUSH_PROMISE`. -/
theorem Assembled.opens (h : Assembled fatal l r) {hdrs : Nat × HdrSide} {p : Rx × Frame}
    (ho : f.Opens) (h1 : openBlock r hdrs = .ok r') (h2 : addFragment r' f = .ok p) :
    Assembled fatal (l ++ [f]) p.1 := by
  obtain ⟨hf, done, tail, rfl, hb, hp⟩ := h
  obtain ⟨hv, hasm, hhand, hwin⟩ := openBlock_eq_ok h1
  obtain ⟨hdrs', vsb, -, hvsb, hwin', -, hcase⟩ := addFragment_eq_ok h2
  rw [hasm] at hvsb
  cases hvsb
  have hfat : p.1.win.fatal = fatal := by rw [hwin', hwin, hf]
  rw [hwin, hf] at hcase
  -- no block was open
  cases hp.nil_of_vsb hv
  rw [List.append_nil]
  rcases hcase with ⟨he, hasm', hhand'⟩ | ⟨he, hasm', hhand'⟩
  · refine ⟨hfat, done ++ [f], [], by simp, ?_, by rw [hasm']; exact .closed⟩
    rw [hhand', hhand]
    simpa using hb.block (headerBlock_single ho he)
  · refine ⟨hfat, done, [f], rfl, by rw [hhand', hhand]; exact hb, ?_⟩
    rw [hasm']
    simpa using Pending.opened (Unfinished.open ho he)

/-- A `CONTINUATION` of the block that is open. -/
theorem Assembled.cont (h : Assembled fatal l r) {p : Rx × Frame} (hc : f.type = typeContinuation)
    (hz : ZeroOk r f) (hexp : r.asm.expectCont ≠ 0 → r.asm.expectCont = f.stid)
    (h2 : addFragment r f = .ok p) : Assembled fatal (l ++ [f]) p.1 := by
  obtain ⟨hf, done, tail, rfl, hb, hp⟩ := h
  obtain ⟨hdrs', vsb, hh, hvsb, hwin, -, hcase⟩ := addFragment_eq_ok h2
  have hfat : p.1.win.fatal = fatal := by rw [hwin, hf]
  rw [hf] at hcase
  generalize hasm : r.asm = asm at hp hh hvsb hz hexp
  cases hp with
  | closed => cases hh
  | @opened h cs hdrs hu =>
    cases hh
    cases hvsb
    have hst : f.ContOf h.stid := by
      by_cases h0 : h.stid = 0
      · rw [h0]
        exact hz (by rw [hasm]; rfl) (by rw [hasm]; exact h0)
      · exact ⟨hc, (hexp h0).symm⟩
    have happ : (h :: (cs ++ [f])).flatMap (fragment fatal) =
        (h :: cs).flatMap (fragment fatal) ++ fragment fatal f := by
      rw [← List.cons_append, List.flatMap_append]
      simp
    rcases hcase with ⟨he, hasm', hhand'⟩ | ⟨he, hasm', hhand'⟩
    · refine ⟨hfat, done ++ h :: (cs ++ [f]), [], by simp, ?_, by rw [hasm']; exact .closed⟩
      rw [hhand', ← happ]
      exact hb.block (hu.close hst he)
    · refine ⟨hfat, done, h :: (cs ++ [f]), by simp, hhand' ▸ hb, ?_⟩
      rw [hasm', ← happ, hst.2]
      exact .opened (hu.cont hst he)

/-- Any other frame. -/
theorem Assembled.other (h : Assembled fatal l r) (ho : ¬f.Opens) (hc : f.type ≠ typeContinuation)
    (hz : ZeroOk r f) (hexp : r.asm.expectCont = 0) : Assembled fatal (l ++ [f]) r := by
  obtain ⟨hf, done, tail, rfl, hb, hp⟩ := h
  generalize hasm : r.asm = asm at hp hexp
  cases hp with
  | closed =>
    refine ⟨hf, done ++ [f], [], by simp, hb.other ho hc, by rw [hasm]; exact .closed⟩
  | opened hu =>
    have := hz (by rw [hasm]; rfl) (by rw [hasm]; exact hexp)
    exact absurd this.1 hc

theorem handleFrame_eq_ok {p : Rx × Frame} (h : handleFrame r f = .ok p) :
    ∃ s, r.win.streams f.stid = some s ∧
      (r.asm.expectCont ≠ 0 → f.type = typeContinuation ∧ r.asm.expectCont = f.stid) ∧
      switchType r s f = .ok p := by
  unfold handleFrame at h
  split at h
  · cases h
  · rename_i s hs
    obtain ⟨hc, h⟩ := fatalIf_bind_eq_ok.mp h
    refine ⟨s, hs, fun he => ?_, h⟩
    simpa [he] using hc

theorem handleFrame_assembled (h : Assembled fatal l r) (hz : ZeroOk r f) {p : Rx × Frame}
    (hs : handleFrame r f = .ok p) : Assembled fatal (l ++ [f]) p.1 := by
  obtain ⟨s, hstr, hexp, hs⟩ := handleFrame_eq_ok hs
  unfold switchType at hs
  split at hs
  · rename_i ht
    obtain ⟨r1, h1, h2⟩ := bind_eq_ok.mp hs
    exact h.opens (.inr ht) h1 h2
  rename_i hpush
  split at hs
  · rename_i ht
    obtain ⟨r1, h1, h2⟩ := bind_eq_ok.mp hs
    exact h.opens (.inl ht) h1 h2
  rename_i hhdr
  split at hs
  · rename_i ht
    exact h.cont ht hz (fun he => (hexp he).2) hs
  · rename_i hcont
    have he : r.asm.expectCont = 0 := by
      by_contra hne
      exact hcont (hexp hne).1
    exact (h.other (fun ho => ho.elim hhdr hpush) hcont hz he).of_same
      (handleOther_same hstr hs).1

theorem receiveOne_assembled (h : Assembled fatal l r) (hz : ZeroOk r f)
    (hs : receiveOne r f = .ok r') : Assembled fatal (l ++ [f]) r' := by
  obtain ⟨p, hp, hs⟩ := bind_eq_ok.mp hs
  exact (handleFrame_assembled h hz hp).of_same (enqueue_same hs)

theorem run_assembled (l2 : List Frame) : ∀ {l : List Frame} {r : Rx}, Assembled fatal l r →
    Along receiveOne ZeroOk r l2 → run receiveOne r l2 = .ok r' →
    Assembled fatal (l ++ l2) r' := by
  induction l2 with
  | nil =>
    intro l r h _ hr
    cases hr
    rwa [List.append_nil]
  | cons f l2 ih =>
    intro l r h hal hr
    obtain ⟨r1, h1, h2⟩ := bind_eq_ok.mp hr
    have := ih (receiveOne_assembled h hal.1 h1) (hal.2 r1 h1) h2
    rwa [List.append_assoc] at this

/-! ## Frames that do not fit in -/

/-- The run ends with `vtc_fatal` or a failed assertion. -/
def Stops {α : Type} (x : Res α) : Prop := x = .error .fatal ∨ x = .error .assert

/-- A block is open, and the frame is no `CONTINUATION` of its stream. -/
theorem receiveOne_intruder (hs : r.win.streams f.stid ≠ none) (he : r.asm.expectCont ≠ 0)
    (hn : ¬f.ContOf r.asm.expectCont) : Stops (receiveOne r f) := by
  left
  have hc : (decide (r.asm.expectCont ≠ 0) &&
      (decide (f.type ≠ typeContinuation) || decide (r.asm.expectCont ≠ f.stid))) = true := by
    by_cases ht : f.type = typeContinuation
    · have : r.asm.expectCont ≠ f.stid := fun e => hn ⟨ht, e.symm⟩
      simp [he, this]
    · simp [he, ht]
  obtain ⟨s, hs⟩ := Option.ne_none_iff_exists'.mp hs
  simp only [receiveOne, handleFrame, hs, hc, fatalIf_true, error_bind]

/-- No block is open, and the frame is a `CONTINUATION`. -/
theorem receiveOne_stray (hs : r.win.streams f.stid ≠ none) (ha : r.asm = {})
    (ht : f.type = typeContinuation) : Stops (receiveOne r f) := by
  right
  obtain ⟨s, hs⟩ := Option.ne_none_iff_exists'.mp hs
  have hsw : switchType r s f = .error .assert := by
    simp [switchType, ht, addFragment, ha, typeContinuation, typePushPromise, typeHeaders]
  simp [receiveOne, handleFrame, hs, ha, hsw]

/-- In a run in which nothing but its own `CONTINUATION` frames arrives while a block is open on
stream 0: the blocks handed to `decode_hdr` are the header blocks of the frames, the frames that
are left are those of a block that is open, and a frame that does not fit in next stops the run. -/
theorem header_blocks_assembled (r0 r : Rx) (l : List Frame) (ha : r0.asm = {})
    (hh : r0.handed = []) (hal : Along receiveOne ZeroOk r0 l)
    (hrun : run receiveOne r0 l = .ok r) :
    ∃ done tail, l = done ++ tail ∧ Blocks r0.win.fatal done r.handed ∧
      (∀ h cs, tail = h :: cs → Unfinished h cs) ∧
      ∀ f, r.win.streams f.stid ≠ none → ZeroOk r f →
        (∀ h cs, tail = h :: cs → ¬f.ContOf h.stid → Stops (receiveOne r f)) ∧
        (tail = [] → f.type = typeContinuation → Stops (receiveOne r f)) := by
  have h0 : Assembled r0.win.fatal [] r0 :=
    ⟨rfl, [], [], rfl, hh ▸ .nil, ha ▸ .closed⟩
  obtain ⟨-, done, tail, he, hb, hp⟩ := run_assembled l h0 hal hrun
  rw [List.nil_append] at he
  refine ⟨done, tail, he, hb, fun h cs ht => ?_, fun f hs hz => ⟨fun h cs ht hn => ?_, ?_⟩⟩
  · subst ht
    exact hp.open_spec.1
  · subst ht
    obtain ⟨-, hexp, hv⟩ := hp.open_spec
    by_cases h0 : h.stid = 0
    · exact absurd (h0 ▸ hz hv (hexp.trans h0)) hn
    · exact receiveOne_intruder hs (hexp ▸ h0) (hexp ▸ hn)
  · rintro rfl ht
    exact receiveOne_stray hs hp.eq_empty ht

/-- Streams 0 and 1. -/
def twoStreams : Rx where
  win := { streams := fun id => if id ≤ 1 then some ⟨0xffff, 0xffff, [], []⟩ else none }

/-- `:method: GET` on stream 1, in two fragments. -/
def splitHeaders : List Frame := [
  { size := 1, stid := 1, type := typeHeaders, flags := 0, data := [0x82] },
  { size := 1, stid := 1, type := typeContinuation, flags := flagEndHeaders, data := [0x84] }]

/-- A block that is opened on stream 0 and continued on stream 1. -/
def strayContinuation : List Frame := [
  { size := 1, stid := 0, type := typeHeaders, flags := 0, data := [0x82] },
  { size := 1, stid := 1, type := typeContinuation, flags := flagEndHeaders, data := [0x84] }]

theorem header_blocks_assembled_split :
    ∃ r done tail, run receiveOne twoStreams splitHeaders = .ok r ∧ splitHeaders = done ++ tail ∧
      Blocks true done r.handed := by
  have hal : Along receiveOne ZeroOk twoStreams splitHeaders := by
    refine ⟨nofun, fun r h => ⟨?_, fun _ _ => trivial⟩⟩
    cases h
    exact fun _ h0 => absurd h0 (by decide)
  obtain ⟨done, tail, he, hb, -⟩ :=
    header_blocks_assembled twoStreams _ splitHeaders rfl rfl hal rfl
  exact ⟨_, done, tail, rfl, he, hb⟩

/-- The frame of stream 1 is taken for a part of the block that is open on stream 0. -/
theorem block_of_two_streams :
    ∃ r, run receiveOne twoStreams strayContinuation = .ok r ∧ r.handed = [[0x82, 0x84]] :=
  ⟨_, rfl, rfl⟩

end Http2
end VTest
