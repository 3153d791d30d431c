import VTest.Lib.Run
import VTest.Hpack.Sync
import VTest.Http2.HdrFrame

/-!
# VTest.Http2.HdrBlock

Header blocks: what `decode_hdr` makes of the bytes that several `HPK_EncHdr` calls wrote one
behind the other.

* `Sane`: a dynamic table that is the list model and small enough for its index arithmetic.
* `Sent.Effect`: what a header that was sent does to a table, on either side.
* `still_of_neutral`: a header that neither reads nor changes the dynamic table has the same meaning
  for every table.
* `decodeHdr_block`: a block decodes to the headers that were sent.
-/

namespace VTest
namespace Http2

open Hpack

def maxHdr : Nat := 64

/-- Slots that are zeroed. -/
def noHeaders (n : Nat) : List HpkHdr := List.replicate n {}

theorem noHeaders_succ (n : Nat) : noHeaders (n + 1) = {} :: noHeaders n := rfl

/-- Zeroes the slots up to the first one that is unset. -/
def cleanHeaders : List HpkHdr → Res (List HpkHdr)
  | [] => .ok []
  | h :: r =>
    if h.t = .unset then .ok (h :: r)
    else do
      let _ ← if h.key.len ≠ 0 then h.key.ptr.free else .ok h.key.ptr
      let _ ← h.value.ptr.free
      let r ← cleanHeaders r
      return {} :: r

/-- The decoding loop of `decode_hdr` over the slots that are left. Returns the last result, the
slots, and how many of them have a header. -/
def decodeLoop (r : HpkResult) (ctx : HpkCtx) (it : HpkIter) :
    List HpkHdr → Res (HpkResult × List HpkHdr × Nat × HpkCtx)
  | [] => .ok (r, [], 0, ctx)
  | h :: hs => do
    let (r, h, it, ctx) ← hpkDecHdr ctx it h
    match r with
    | .err => return (r, h :: hs, 0, ctx)
    | .done => return (r, h :: hs, 1, ctx)
    | .more =>
      let (r, hs, n, ctx) ← decodeLoop r ctx it hs
      return (r, h :: hs, n + 1, ctx)

/-- An unset slot ends the headers. -/
def headersOf (h : List HpkHdr) : List HpkHdr := h.takeWhile (·.t ≠ .unset)

def decodeHdr (fatal : Bool) (ctx : HpkCtx) (h : List HpkHdr) (vsb : Bytes) :
    Res (List HpkHdr × HpkCtx) :=
  if vsb.isEmpty then .ok (h, ctx)
  else do
    let n := (headersOf h).length
    let (r, new, k, ctx) ← decodeLoop .err ctx ⟨[], vsb⟩ (h.drop n)
    fatalIf (fatal && (r ≠ .done || n + k = maxHdr))
    return (h.take n ++ new, ctx)

/-! ## The block of a frame -/

theorem hdrFields_headers {f : Frame} {a b c d w : UInt8} {r : Bytes} (ht : f.type = typeHeaders)
    (h : f.flags &&& flagPriority ≠ 0) (hm : f.mem = a :: b :: c :: d :: w :: r)
    (streams : List PrioStream) (k shift : Nat) :
    ∃ streams', hdrFields streams k f shift = .ok (shift + 5, streams', f) := by
  simp [hdrFields, ht, h, hm, vbe32dec, load]

theorem mem_setPadded (f : Frame) (b : UInt8) : (f.setPadded b).mem = f.mem := rfl

/-- The header block of a `HEADERS` frame arrives with any options. With padding and a priority the
priority is read from the wrong place, but what is skipped is right. -/
theorem headers_block_arrives {blk : TxBuf} {stid : Nat} {hdrEnd strEnd : Bool} {block : Bytes}
    {prio : Option Prio} {pad : Option Bytes} {f : Frame}
    (h : tx11Frame blk stid hdrEnd strEnd block (.headers prio pad) = .ok f) (fatal : Bool)
    (streams : List PrioStream) (k : Nat) (vsb : Bytes) :
    ∃ streams' f', parseHdr fatal streams k f vsb = .ok (streams', f', vsb ++ block) := by
  obtain ⟨hlen, hf⟩ := tx11Frame_headers h
  have hprio := flags_priority hdrEnd strEnd prio.isSome pad.isSome
  have hpad := flags_padded hdrEnd strEnd prio.isSome pad.isSome
  have ht : f.type = typeHeaders := by rw [hf]
  have hp : f.type ≠ typePushPromise := by rw [ht]; decide
  have hd : f.data = (padLead pad ++ prioBytes prio) ++ block ++ padBytes pad := by
    rw [hf]
    simp
  have hs : f.size = f.data.length := by rw [hf]
  have hflags : f.flags = baseFlags hdrEnd strEnd ||| flagIf prio.isSome flagPriority |||
      flagIf pad.isSome flagPadded := by rw [hf]
  rw [← hflags] at hprio hpad
  -- what is read and skipped in front of the block
  have hfields : ∀ f1 : Frame, f1.type = f.type → f1.flags = f.flags → f1.mem = f.mem →
      ∀ shift, ∃ streams', hdrFields streams k f1 shift =
        .ok (shift + (prioBytes prio).length, streams', f1) := by
    intro f1 h1 h2 h3 shift
    cases prio with
    | none =>
      refine ⟨streams, hdrFields_off ?_ (by rw [h1]; exact hp) streams k shift⟩
      intro _
      rw [h2]
      simpa using hprio
    | some p =>
      have hmem : ∃ a b c d w r, f1.mem = a :: b :: c :: d :: w :: r := by
        rw [h3, Frame.mem, if_neg (by rw [hs, hd]; simp [prioBytes]), hd]
        cases pad with
        | none => exact ⟨_, _, _, _, _, _, rfl⟩
        | some pad => exact ⟨_, _, _, _, _, _, rfl⟩
      obtain ⟨a, b, c, d, w, r, hmem⟩ := hmem
      exact hdrFields_headers (by rw [h1, ht]) (by rw [h2]; simpa using hprio) hmem streams k shift
  cases pad with
  | none =>
    obtain ⟨streams', h2⟩ := hfields f rfl rfl rfl 0
    have hsize : f.size = (prioBytes prio).length + block.length := by
      rw [hs, hd]
      simp [padLead, padBytes]
    refine ⟨streams', f, parseHdr_eq (hdrPadding_off (by simpa using hpad) fatal) h2 ?_⟩
    rw [Nat.zero_add, hsize]
    exact hdrAppend_block hd vsb
  | some pad =>
    have hL := toNat_padLength (hlen pad rfl)
    have hsize : f.size = 1 + (prioBytes prio).length + block.length + pad.length := by
      rw [hs, hd]
      simp [padLead, padBytes]
      omega
    obtain ⟨streams', h2⟩ := hfields (f.setPadded (UInt8.ofNat pad.length)) rfl rfl
      (mem_setPadded _ _) 1
    refine ⟨streams', f.setPadded (UInt8.ofNat pad.length),
      parseHdr_eq (hdrPadding_on (by simpa using hpad) (by rw [ht]; decide) hd hs
        (by rw [hL]; omega) fatal) h2 ?_⟩
    have hspan : f.size - (UInt8.ofNat pad.length).toNat =
        (padLead (some pad) ++ prioBytes prio).length + block.length := by
      rw [hL, hsize]
      simp [padLead]
      omega
    rw [hspan]
    have := hdrAppend_block (f := f.setPadded (UInt8.ofNat pad.length)) hd vsb
    simpa [padLead, Nat.add_comm] using this

/-! ## Tables -/

/-- The table is the list model, and its bound leaves room for the static table in the index
arithmetic. -/
def Sane (ctx : HpkCtx) : Prop := ∃ t : RfcTable, Refines ctx t ∧ t.max < 2 ^ 32 - 61

theorem sane_new : Sane (hpkNewCtx 4096) := ⟨_, refines_new 4096, by decide⟩

theorem Sane.resize {ctx ctx' : HpkCtx} {val : UInt32} (h : Sane ctx)
    (hv : val.toNat < 2 ^ 32 - 61) (hr : hpkResizeTbl ctx val = .ok ctx') : Sane ctx' := by
  obtain ⟨t, ht, _⟩ := h
  obtain ⟨c, hc, hc'⟩ := hpkResizeTbl_refines ht val
  rw [hr] at hc
  cases hc
  exact ⟨_, hc', hv⟩

theorem Sane.push {ctx ctx' : HpkCtx} {e : DynHdr} (h : Sane ctx) (he : e.len < 2 ^ 32)
    (hp : pushEntry ctx e = .ok ctx') : Sane ctx' := by
  obtain ⟨t, ht, hmax⟩ := h
  have hentry : HpkHdr.entry ⟨.of e.key, .of e.value, .inc, 0⟩ = .ok e := by simp [HpkHdr.entry]
  obtain ⟨c, hc, hc'⟩ := pushHeader_refines ht hentry he
  rw [pushHeader_entry hentry, hp] at hc
  cases hc
  exact ⟨_, hc', hmax⟩

theorem Sane.getHdr_static {ctx : HpkCtx} {i : UInt32} (h : Sane ctx) (hi : i.toNat ≤ 61) :
    hpkGetHdr ctx i = sttbl[i.toNat]? := by
  obtain ⟨t, ht, hmax⟩ := h
  have hw := t.fits
  rw [← ht.dyntbl] at hw
  exact (lookup_static (by omega) ht.size hi).1

/-! ## Headers that were sent -/

/-- A header, what it stood for in the encoder's table, and the bytes it was written as. -/
structure Sent where
  hdr : HpkHdr
  denoted : Res DynHdr
  bytes : Bytes

def bytesOf (l : List Sent) : Bytes := l.flatMap Sent.bytes

/-- A header that reads or changes the dynamic table. -/
def Sent.Touches (x : Sent) : Prop := x.hdr.t = .inc ∨ 61 < x.hdr.i.toNat

def Sent.Effect (ctx : HpkCtx) (x : Sent) (ctx' : HpkCtx) : Prop :=
  ∃ e, x.denoted = .ok e ∧ e.len < 2 ^ 32 ∧ Hpack.Effect ctx x.hdr e ctx' ∧ x.hdr.Starts x.bytes

theorem Sent.Effect.sane {ctx ctx' : HpkCtx} {x : Sent} (hs : Sane ctx)
    (h : x.Effect ctx ctx') : Sane ctx' := by
  obtain ⟨e, _, he, hf, _⟩ := h
  by_cases hinc : x.hdr.t = .inc
  · exact hs.push he (hf.pushEntry hinc)
  · rw [hf.of_ne_inc hinc]
    exact hs

/-- The same meaning for every table. -/
def Sent.Still (x : Sent) : Prop := ∀ ctx, Sane ctx → x.Effect ctx ctx

theorem sendable_of_getHdr {c c' : HpkCtx} {h : HpkHdr} (hg : hpkGetHdr c' h.i = hpkGetHdr c h.i)
    (hs : h.Sendable c) : h.Sendable c' := by
  unfold HpkHdr.Sendable at hs ⊢
  rw [hg]
  exact hs

theorem still_of_neutral {ctx ctx' : HpkCtx} {x : Sent} (hs : Sane ctx) (h : x.Effect ctx ctx')
    (hn : ¬ x.Touches) : ctx' = ctx ∧ x.Still := by
  obtain ⟨e, hden, he, hf, hst⟩ := h
  have hinc : x.hdr.t ≠ .inc := fun hc => hn (.inl hc)
  have hi : x.hdr.i.toNat ≤ 61 := by
    by_contra hc
    exact hn (.inr (by omega))
  refine ⟨hf.of_ne_inc hinc, fun c hc => ⟨e, hden, he, ⟨?_, hf.nonzero, ?_, ?_⟩, hst⟩⟩
  · exact sendable_of_getHdr (by rw [hc.getHdr_static hi, hs.getHdr_static hi]) hf.sendable
  · have hd := hf.denotes
    unfold HpkHdr.denotes at hd ⊢
    rwa [hc.getHdr_static hi, ← hs.getHdr_static hi]
  · simp [pushIf, hinc]

theorem stays_of_neutral {ctx ctx' : HpkCtx} {l : List Sent} (hs : Sane ctx)
    (h : Path Sent.Effect ctx l ctx') (hn : ∀ x ∈ l, ¬ x.Touches) :
    ctx' = ctx ∧ ∀ x ∈ l, x.Still := by
  refine ⟨h.stays hs fun x hx c c' hc hf => (still_of_neutral hc hf (hn x hx)).1, ?_⟩
  induction h with
  | nil => simp
  | @cons c c1 c2 x l hx _ ih =>
    obtain ⟨rfl, hstill⟩ := still_of_neutral hs hx (hn x List.mem_cons_self)
    intro y hy
    rcases List.mem_cons.mp hy with rfl | hy
    · exact hstill
    · exact ih hs (fun z hz => hn z (List.mem_cons_of_mem _ hz)) y hy

/-! ## Decoding a block -/

/-- Every literal of the block reads back in its position. -/
def LegibleAll (done : Bytes) : List Sent → Prop
  | [] => True
  | x :: l => Legible done x.hdr x.bytes (bytesOf l) ∧ LegibleAll (done ++ x.bytes) l

def Sent.Decoded (x : Sent) (out : HpkHdr) : Prop :=
  ∃ e, x.denoted = .ok e ∧ Hpack.Decoded x.hdr e out

theorem bytesOf_ne_nil {ctx ctx' : HpkCtx} {l : List Sent} (h : Path Sent.Effect ctx l ctx')
    (hne : l ≠ []) : bytesOf l ≠ [] := by
  cases h with
  | nil => exact absurd rfl hne
  | cons hx _ =>
    obtain ⟨_, _, _, _, _, r, _, _, hw⟩ := hx
    simp [bytesOf, hw]

theorem decodeLoop_block {l : List Sent} :
    ∀ {ctx ctx' : HpkCtx} {done : Bytes} (r : HpkResult) {m : Nat},
      Path Sent.Effect ctx l ctx' → LegibleAll done l → l ≠ [] → l.length ≤ m →
      ∃ outs, decodeLoop r ctx ⟨done, bytesOf l⟩ (noHeaders m) =
          .ok (.done, outs ++ noHeaders (m - l.length), l.length, ctx') ∧
        List.Forall₂ Sent.Decoded l outs := by
  induction l with
  | nil => intro _ _ _ _ _ _ _ hne; exact absurd rfl hne
  | cons x l ih =>
    intro ctx ctx' done r m hp hl _ hm
    obtain ⟨m, rfl⟩ : ∃ k, m = k + 1 := ⟨m - 1, by simp only [List.length_cons] at hm; omega⟩
    cases hp with
    | @cons _ c1 _ _ _ hx hp =>
    obtain ⟨e, hden, _, hf, hst⟩ := hx
    obtain ⟨out, hdec, hout⟩ := hpkDecHdr_of_legible {} hf hst hl.1
    have hbytes : bytesOf (x :: l) = x.bytes ++ bytesOf l := by simp [bytesOf]
    rw [noHeaders_succ, decodeLoop, hbytes, hdec, ok_bind]
    by_cases hne : l = []
    · subst hne
      cases hp
      exact ⟨[out], by simp [HpkIter.result, bytesOf], .cons ⟨e, hden, hout⟩ .nil⟩
    · rw [result_more _ (bytesOf_ne_nil hp hne)]
      have hm' : l.length ≤ m := by simpa using hm
      obtain ⟨outs, hloop, hall⟩ := ih .more hp hl.2 hne hm'
      refine ⟨out :: outs, ?_, .cons ⟨e, hden, hout⟩ hall⟩
      simp only [hloop, ok_bind, pure_res, List.length_cons, List.cons_append,
        Nat.add_sub_add_right]

/-- The slots of a stream: headers, and zeroed slots behind them. -/
def Slots (h : List HpkHdr) : Prop :=
  ∃ outs : List HpkHdr, h = outs ++ noHeaders (maxHdr - outs.length) ∧
    outs.length ≤ maxHdr ∧ ∀ o ∈ outs, o.t ≠ .unset ∧ ∃ e, o.entry = .ok e

theorem free_of_deref {t : HpkTxt} {b : Bytes} (h : t.deref = .ok b) : t.ptr.free = .ok .freed := by
  unfold HpkTxt.deref at h
  split at h
  · rename_i hp
    rw [hp]
    rfl
  · cases h

theorem cleanHeaders_append {outs : List HpkHdr} (n : Nat)
    (ho : ∀ o ∈ outs, o.t ≠ .unset ∧ ∃ e, o.entry = .ok e) :
    cleanHeaders (outs ++ noHeaders n) = .ok (noHeaders (outs.length + n)) := by
  induction outs with
  | nil =>
    cases n with
    | zero => rfl
    | succ n => simp [noHeaders_succ, cleanHeaders]
  | cons o outs ih =>
    obtain ⟨ht, e, he⟩ := ho o List.mem_cons_self
    obtain ⟨hk, hv⟩ := entry_eq_ok he
    have hrest := ih fun o' ho' => ho o' (List.mem_cons_of_mem _ ho')
    have hlen : (o :: outs).length + n = (outs.length + n) + 1 := by
      simp only [List.length_cons]
      omega
    rw [List.cons_append, cleanHeaders, if_neg ht, free_of_deref hk, free_of_deref hv, hrest, hlen,
      noHeaders_succ]
    split <;> rfl

theorem Slots.clean {h : List HpkHdr} (hs : Slots h) :
    cleanHeaders h = .ok (noHeaders maxHdr) := by
  obtain ⟨outs, rfl, hle, ho⟩ := hs
  rw [cleanHeaders_append _ ho]
  congr 2
  omega

theorem headersOf_append (outs : List HpkHdr) (n : Nat) (ho : ∀ o ∈ outs, o.t ≠ .unset) :
    headersOf (outs ++ noHeaders n) = outs := by
  induction outs with
  | nil =>
    cases n with
    | zero => rfl
    | succ n => simp [headersOf, noHeaders_succ]
  | cons o outs ih =>
    have := ho o List.mem_cons_self
    rw [headersOf, List.cons_append, List.takeWhile_cons_of_pos (by simpa using this)]
    congr 1
    exact ih fun o' ho' => ho o' (List.mem_cons_of_mem _ ho')

theorem Sendable.t_ne_unset {ctx : HpkCtx} {h : HpkHdr} (hs : h.Sendable ctx) : h.t ≠ .unset := by
  rcases hs with ⟨ht, _⟩ | ⟨ht, _⟩
  · rw [ht]
    decide
  · intro e
    rw [e] at ht
    cases ht

theorem live_of_decoded {ctx ctx' : HpkCtx} {l : List Sent} {outs : List HpkHdr}
    (hp : Path Sent.Effect ctx l ctx') (h : List.Forall₂ Sent.Decoded l outs) :
    ∀ o ∈ outs, o.t ≠ .unset ∧ ∃ e, o.entry = .ok e := by
  induction h generalizing ctx with
  | nil => simp
  | cons hx _ ih =>
    cases hp with
    | cons hf hp =>
    obtain ⟨_, _, _, hf, _⟩ := hf
    obtain ⟨e, _, ht, he⟩ := hx
    intro o ho
    rcases List.mem_cons.mp ho with rfl | ho
    · rw [ht]
      exact ⟨Sendable.t_ne_unset hf.sendable, e, he⟩
    · exact ih hp o ho

/-- A block decodes to the headers that were sent. -/
theorem decodeHdr_block {ctx ctx' : HpkCtx} {l : List Sent} (fatal : Bool)
    (hp : Path Sent.Effect ctx l ctx') (hl : LegibleAll [] l) (hm : l.length < maxHdr) :
    ∃ h, decodeHdr fatal ctx (noHeaders maxHdr) (bytesOf l) = .ok (h, ctx') ∧ Slots h ∧
      List.Forall₂ Sent.Decoded l (headersOf h) := by
  have hnone : headersOf (noHeaders maxHdr) = [] :=
    headersOf_append [] maxHdr (by simp)
  by_cases hne : l = []
  · subst hne
    cases hp
    exact ⟨_, rfl, ⟨[], rfl, Nat.zero_le _, by simp⟩, by rw [hnone]; exact .nil⟩
  · obtain ⟨outs, hloop, hall⟩ := decodeLoop_block .err hp hl hne (Nat.le_of_lt hm)
    have hlen := hall.length_eq
    have hlive := live_of_decoded hp hall
    refine ⟨outs ++ noHeaders (maxHdr - outs.length), ?_, ⟨outs, rfl, by omega, hlive⟩, ?_⟩
    · have hbytes : (bytesOf l).isEmpty = false := by
        simpa using bytesOf_ne_nil hp hne
      have hfull : ¬ outs.length = maxHdr := by omega
      simp [decodeHdr, hbytes, hnone, hloop, hfull, hlen]
    · rw [headersOf_append outs _ fun o ho => (hlive o ho).1]
      exact hall

end Http2
end VTest
