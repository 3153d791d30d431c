import VTest.Lib.Defined
import VTest.Hpack.Literal
import VTest.Hpack.Sync

/-!
# VTest.Hpack.Progress

The position of `HPK_DecHdr` in its block, and the output of `huff_decode`.

Two operations of the decoder may be undefined: the shift of `num_decode`, once six groups have been
read, and the second `free` of a name that failed to decode. The decoder is written here over these
operations (`DecOps`). With the ones of C it is the decoder of `VTest.Hpack.Codec`
(`hpkDecHdr_eq_with`), and a `Machine` computes something in their place. What is said about the
position holds on every machine, so it does not rest on the two operations.

* `hpkDecHdrWith_steps`: the call stays in the block, and advances unless it fails.
* `huffTrace_le`: every character takes at least five bits.
-/

namespace VTest
namespace Hpack

/-! ## Positions -/

/-- The cursor has moved over some bytes of the block. -/
def Moved (it it' : HpkIter) : Prop := ∃ w, it'.done = it.done ++ w ∧ it.left = w ++ it'.left

theorem Moved.refl (it : HpkIter) : Moved it it := ⟨[], by simp, rfl⟩

theorem Moved.trans {it it1 it2 : HpkIter} (h : Moved it it1) (h' : Moved it1 it2) :
    Moved it it2 := by
  obtain ⟨w, hd, hl⟩ := h
  obtain ⟨w', hd', hl'⟩ := h'
  exact ⟨w ++ w', by rw [hd', hd, List.append_assoc], by rw [hl, hl', List.append_assoc]⟩

theorem Moved.block {it it' : HpkIter} (h : Moved it it') :
    it'.done ++ it'.left = it.done ++ it.left := by
  obtain ⟨w, hd, hl⟩ := h
  rw [hd, hl, List.append_assoc]

theorem Moved.le {it it' : HpkIter} (h : Moved it it') : it.done.length ≤ it'.done.length := by
  obtain ⟨w, hd, -⟩ := h
  rw [hd, List.length_append]
  omega

/-- What a part of the decoder does to the cursor when it returns `r`. -/
structure Steps (it : HpkIter) (r : HpkResult) (it' : HpkIter) : Prop where
  moved : Moved it it'
  advanced : r ≠ .err → it.done.length < it'.done.length
  result : r ≠ .err → r = it'.result

theorem Steps.err {it it' : HpkIter} (h : Moved it it') : Steps it .err it' :=
  ⟨h, fun he => absurd rfl he, fun he => absurd rfl he⟩

theorem Steps.of_moved {it it1 it2 : HpkIter} {r : HpkResult} (h : Moved it it1)
    (h' : Steps it1 r it2) : Steps it r it2 :=
  ⟨h.trans h'.moved, fun hr => lt_of_le_of_lt h.le (h'.advanced hr), h'.result⟩

theorem result_eq_done {it : HpkIter} : it.result = .done ↔ it.left = [] := by
  rw [HpkIter.result]
  split
  · rename_i h
    exact iff_of_true rfl (List.isEmpty_iff.mp h)
  · rename_i h
    exact iff_of_false (by decide) (fun he => h (List.isEmpty_iff.mpr he))

theorem Steps.left_ne_nil {it it' : HpkIter} (h : Steps it .more it') : it'.left ≠ [] := by
  intro he
  have hr := h.result (by decide)
  rw [result_eq_done.mpr he] at hr
  cases hr

/-! ## The decoder over its operations -/

/-- The operations of the decoder that may be undefined. -/
structure DecOps where
  num : HpkIter → Nat → Res (HpkResult × UInt32 × HpkIter)
  free : Ptr → Res Ptr

section With

variable (o : DecOps)

def strDecodeWith (it : HpkIter) (t : HpkTxt) : Res (HpkResult × HpkTxt × HpkIter) := do
  check (!it.left.isEmpty)
  let huff := it.left.headD 0 &&& 0x80
  let (ret, num, it) ← o.num it 7
  if ret ≠ .more then return (.err, t, it)
  check (!it.left.isEmpty)
  if it.left.length < num.toNat then return (.err, t, it)
  if huff ≠ 0 then
    let (str, it) ← huffDecode it num.toNat
    if str.isEmpty then return (.err, { t with ptr := .freed }, it)
    return (it.result, .of str true, it)
  else
    let it' : HpkIter := ⟨it.done ++ it.left.take num.toNat, it.left.drop num.toNat⟩
    return (it'.result, .of (it.left.take num.toNat), it')

def dropKeyWith (header : HpkHdr) (it : HpkIter) (ctx : HpkCtx) :
    Res (HpkResult × HpkHdr × HpkIter × HpkCtx) := do
  let p ← o.free header.key.ptr
  return (.err, { header with key := { header.key with ptr := p } }, it, ctx)

def decIdxWith (ctx : HpkCtx) (it : HpkIter) (header : HpkHdr) :
    Res (HpkResult × HpkHdr × HpkIter × HpkCtx) := do
  let header := { header with t := .idx }
  let (ret, num, it) ← o.num it 7
  if ret = .err then return (.err, header, it, ctx)
  if num = 0 then return (.err, header, it, ctx)
  match tblGetKey ctx num with
  | none => return (.err, header, it, ctx)
  | some t =>
    let key ← txtcpy header.key t
    let header := { header with key := key }
    match tblGetValue ctx num with
    | none => dropKeyWith o header it ctx
    | some t =>
      let value ← txtcpy header.value t
      return (it.result, { header with value := value }, it, ctx)

def decNameWith (ctx : HpkCtx) (it : HpkIter) (header : HpkHdr) :
    Res (HpkResult × HpkHdr × HpkIter × HpkCtx) :=
  if header.i ≠ 0 then
    match tblGetKey ctx header.i with
    | none => .ok (.err, header, it, ctx)
    | some t => do
      let key ← txtcpy header.key t
      return (.more, { header with key := key }, it, ctx)
  else do
    let (ret, key, it) ← strDecodeWith o it header.key
    let header := { header with key := key }
    if ret ≠ .more then dropKeyWith o header it ctx
    else return (.more, header, it, ctx)

def decLitWith (ctx : HpkCtx) (it : HpkIter) (header : HpkHdr) (pref : Nat) (mustIndex : Bool) :
    Res (HpkResult × HpkHdr × HpkIter × HpkCtx) := do
  let (ret, num, it) ← o.num it pref
  if ret ≠ .more then return (.err, header, it, ctx)
  let (ret, header, it, ctx) ← decNameWith o ctx it { header with i := num }
  if ret = .err then return (.err, header, it, ctx)
  let (ret, value, it) ← strDecodeWith o it header.value
  let header := { header with value := value }
  if ret = .err then dropKeyWith o header it ctx
  else
    let ctx ← pushIf mustIndex ctx header
    return (it.result, header, it, ctx)

def decResizeWith (ctx : HpkCtx) (it : HpkIter) (header : HpkHdr) :
    Res (HpkResult × HpkHdr × HpkIter × HpkCtx) := do
  let (ret, num, it) ← o.num it 5
  if ret ≠ .done then return (.err, header, it, ctx)
  let ctx ← hpkResizeTbl ctx num
  return (.done, header, it, ctx)

def hpkDecHdrWith (ctx : HpkCtx) (it : HpkIter) (header : HpkHdr) :
    Res (HpkResult × HpkHdr × HpkIter × HpkCtx) :=
  match it.left with
  | [] => .error .assert
  | b :: _ =>
    if b &&& 128 ≠ 0 then decIdxWith o ctx it header
    else if b >>> 6 = 1 then decLitWith o ctx it { header with t := .inc } 6 true
    else if b >>> 4 = 0 then decLitWith o ctx it { header with t := .not } 4 false
    else if b >>> 4 = 1 then decLitWith o ctx it { header with t := .never } 4 false
    else if b >>> 5 = 1 then decResizeWith o ctx it header
    else .ok (.err, header, it, ctx)

end With

/-- The operations of C. -/
def cOps : DecOps where
  num := numDecode
  free := Ptr.free

theorem hpkDecHdr_eq_with : hpkDecHdr = hpkDecHdrWith cOps := rfl

/-! ## Machines -/

/-- What a machine computes for a shift of a 32-bit value by 32 or more. -/
structure Machine where
  shr : UInt32 → UInt8 → UInt32
  shl : UInt32 → UInt8 → UInt32

variable (m : Machine)

def Machine.shiftRight (x : UInt32) (s : UInt8) : UInt32 :=
  if s < 32 then x >>> UInt32.ofNat s.toNat else m.shr x s

def Machine.shiftLeft (x : UInt32) (s : UInt8) : UInt32 :=
  if s < 32 then x <<< UInt32.ofNat s.toNat else m.shl x s

/-- The loop of `num_decode`. The shift is a `uint8_t`, which wraps in a long sequence of groups. -/
def numDecLoopOn (done : Bytes) : Bytes → UInt32 → UInt8 → Res (HpkResult × UInt32 × HpkIter)
  | [], _, _ => .error .ub
  | b :: r, result, shift =>
    match r with
    | [] => .ok (.err, result, ⟨done ++ [b], []⟩)
    | c :: r' =>
      if m.shiftRight (0xffffffff - result) shift < (c &&& 0x7f).toUInt32 then
        .ok (.err, result, ⟨done ++ [b], c :: r'⟩)
      else
        let result := result + m.shiftLeft (c &&& 0x7f).toUInt32 shift
        if c &&& 0x80 ≠ 0 then numDecLoopOn (done ++ [b]) (c :: r') result (shift + 7)
        else
          let it : HpkIter := ⟨done ++ [b, c], r'⟩
          .ok (it.result, result, it)

def numDecodeOn (it : HpkIter) (pfx : Nat) : Res (HpkResult × UInt32 × HpkIter) := do
  check (!it.left.isEmpty)
  check (pfx ≠ 0)
  check (pfx ≤ 8)
  match it.left with
  | [] => .error .ub
  | b :: r =>
    let result := (b &&& (0xff >>> UInt8.ofNat (8 - pfx))).toUInt32
    if result.toNat < 2 ^ pfx - 1 then
      let it : HpkIter := ⟨it.done ++ [b], r⟩
      return (it.result, result, it)
    else numDecLoopOn m it.done (b :: r) result 0

/-- A second `free` leaves the pointer as it is. -/
def freeOn : Ptr → Res Ptr
  | .null => .ok .null
  | _ => .ok .freed

def Machine.ops : DecOps where
  num := numDecodeOn m
  free := freeOn

/-- `HPK_DecHdr` on a machine. -/
def hpkDecHdrOn : HpkCtx → HpkIter → HpkHdr → Res (HpkResult × HpkHdr × HpkIter × HpkCtx) :=
  hpkDecHdrWith m.ops

/-! ## Every machine does what C defines -/

theorem numDecLoopOn_upTo : ∀ (l done : Bytes) (result : UInt32) (s : UInt8),
    UpToUb (numDecLoop done l result s.toNat) (numDecLoopOn m done l result s) := by
  intro l
  induction l with
  | nil => intro done result s; exact .inl rfl
  | cons b r ih =>
    intro done result s
    cases r with
    | nil => exact .refl _
    | cons c r =>
      rw [numDecLoop, numDecLoopOn]
      by_cases hs : 32 ≤ s.toNat
      · exact .inl (if_pos hs)
      · have hlt : s < 32 := by
          rw [UInt8.lt_iff_toNat_lt]
          exact Nat.not_le.mp hs
        have hnext : (s + 7).toNat = s.toNat + 7 := by
          rw [UInt8.toNat_add]
          exact Nat.mod_eq_of_lt (by simp; omega)
        simp only [if_neg hs, Machine.shiftRight, Machine.shiftLeft, if_pos hlt]
        split
        · exact .refl _
        · split
          · rw [← hnext]
            exact ih _ _ _
          · exact .refl _

theorem numDecodeOn_upTo (it : HpkIter) (pfx : Nat) :
    UpToUb (numDecode it pfx) (numDecodeOn m it pfx) := by
  obtain ⟨done, left⟩ := it
  refine .bind (.refl _) fun _ => .bind (.refl _) fun _ => .bind (.refl _) fun _ => ?_
  cases left with
  | nil => exact .refl _
  | cons b r =>
    simp only
    split
    · exact .refl _
    · exact numDecLoopOn_upTo m _ _ _ 0

theorem freeOn_upTo (p : Ptr) : UpToUb p.free (freeOn p) := by
  cases p with
  | null => exact .refl _
  | mem b => exact .refl _
  | freed => exact .inl rfl

section UpTo

variable {o o' : DecOps} (hn : ∀ it pfx, UpToUb (o.num it pfx) (o'.num it pfx))
  (hf : ∀ p, UpToUb (o.free p) (o'.free p))

include hn in
theorem strDecodeWith_upTo (it : HpkIter) (t : HpkTxt) :
    UpToUb (strDecodeWith o it t) (strDecodeWith o' it t) :=
  .bind (.refl _) fun _ => .bind (hn it 7) fun _ => .refl _

include hf in
theorem dropKeyWith_upTo (h : HpkHdr) (it : HpkIter) (ctx : HpkCtx) :
    UpToUb (dropKeyWith o h it ctx) (dropKeyWith o' h it ctx) :=
  .bind (hf _) fun _ => .refl _

include hn hf

theorem decIdxWith_upTo (ctx : HpkCtx) (it : HpkIter) (h : HpkHdr) :
    UpToUb (decIdxWith o ctx it h) (decIdxWith o' ctx it h) := by
  refine .bind (hn it 7) fun p => ?_
  simp only
  split
  · exact .refl _
  · split
    · exact .refl _
    · split
      · exact .refl _
      · refine .bind (.refl _) fun key => ?_
        split
        · exact dropKeyWith_upTo hf _ _ _
        · exact .refl _

theorem decNameWith_upTo (ctx : HpkCtx) (it : HpkIter) (h : HpkHdr) :
    UpToUb (decNameWith o ctx it h) (decNameWith o' ctx it h) := by
  unfold decNameWith
  split
  · exact .refl _
  · refine .bind (strDecodeWith_upTo hn it h.key) fun p => ?_
    simp only
    split
    · exact dropKeyWith_upTo hf _ _ _
    · exact .refl _

theorem decLitWith_upTo (ctx : HpkCtx) (it : HpkIter) (h : HpkHdr) (pref : Nat) (mustIndex : Bool) :
    UpToUb (decLitWith o ctx it h pref mustIndex) (decLitWith o' ctx it h pref mustIndex) := by
  refine .bind (hn it pref) fun p => ?_
  simp only
  split
  · exact .refl _
  · refine .bind (decNameWith_upTo hn hf _ _ _) fun q => ?_
    split
    · exact .refl _
    · refine .bind (strDecodeWith_upTo hn _ _) fun v => ?_
      split
      · exact dropKeyWith_upTo hf _ _ _
      · exact .refl _

theorem hpkDecHdrWith_upTo (ctx : HpkCtx) (it : HpkIter) (h : HpkHdr) :
    UpToUb (hpkDecHdrWith o ctx it h) (hpkDecHdrWith o' ctx it h) := by
  unfold hpkDecHdrWith
  split
  · exact .refl _
  · split
    · exact decIdxWith_upTo hn hf _ _ _
    · split
      · exact decLitWith_upTo hn hf _ _ _ _ _
      · split
        · exact decLitWith_upTo hn hf _ _ _ _ _
        · split
          · exact decLitWith_upTo hn hf _ _ _ _ _
          · split
            · exact .bind (hn it 5) fun _ => .refl _
            · exact .refl _

end UpTo

theorem hpkDecHdrOn_upTo (ctx : HpkCtx) (it : HpkIter) (h : HpkHdr) :
    UpToUb (hpkDecHdr ctx it h) (hpkDecHdrOn m ctx it h) := by
  rw [hpkDecHdr_eq_with]
  exact hpkDecHdrWith_upTo (numDecodeOn_upTo m) freeOn_upTo ctx it h

/-! ## The text of a Huffman literal -/

theorem fillPack_moved : ∀ (ilen : Nat) (pack : UInt64) (pl : Nat) (it : HpkIter)
    (p : UInt64 × Nat × Nat × HpkIter), fillPack ilen pack pl it = .ok p →
    Moved it p.2.2.2 ∧ p.2.1 + 8 * p.2.2.1 = pl + 8 * ilen := by
  intro ilen
  induction ilen with
  | zero =>
    intro pack pl it p h
    cases h
    exact ⟨.refl it, rfl⟩
  | succ ilen ih =>
    intro pack pl it p h
    rw [fillPack] at h
    split at h
    · split at h
      · cases h
      · rename_i b r hl
        have hone : Moved it ⟨it.done ++ [b], r⟩ := ⟨[b], rfl, hl⟩
        obtain ⟨hm, hb⟩ := ih _ _ _ _ h
        exact ⟨hone.trans hm, by omega⟩
    · cases h
      exact ⟨.refl it, rfl⟩

-- otherwise the unifier evaluates the tables
attribute [local irreducible] stbl

theorem huffDecLoop_moved : ∀ (n tbl : Nat) (pack : UInt64) (pl ilen : Nat) (str : Bytes)
    (it : HpkIter) (p : Bytes × HpkIter), huffDecLoop n tbl pack pl ilen str it = .ok p →
    Moved it p.2 := by
  intro n
  induction n with
  | zero =>
    intro tbl pack pl ilen str it p h
    cases h
  | succ n ih =>
    intro tbl pack pl ilen str it p h
    have hturn : ∀ pack pl ilen it, huffTurn n tbl pack pl ilen str it = .ok p → Moved it p.2 := by
      intro pack pl ilen it h
      obtain ⟨-, h⟩ := check_bind_eq_ok.mp h
      split at h
      · cases h
      · obtain ⟨-, h⟩ := check_bind_eq_ok.mp h
        split at h
        · cases h
          exact .refl it
        · obtain ⟨-, h⟩ := check_bind_eq_ok.mp h
          split at h
          · exact ih _ _ _ _ _ _ _ h
          · exact ih _ _ _ _ _ _ _ h
    rw [huffDecLoop_succ] at h
    split at h
    · cases h
      exact .refl it
    · split at h
      · obtain ⟨-, h⟩ := check_bind_eq_ok.mp h
        cases h
        exact .refl it
      · split at h
        · obtain ⟨q, hq, h⟩ := bind_eq_ok.mp h
          exact (fillPack_moved _ _ _ _ _ hq).1.trans (hturn _ _ _ _ h)
        · exact hturn _ _ _ _ h

/-- The decoder of a text stays in the block, whatever its bits are. -/
theorem huffDecode_checked {it : HpkIter} {n : Nat} (h : n ≤ it.left.length) :
    Checked (fun p => Moved it p.2) (huffDecode it n) := by
  have hmoved := huffDecLoop_moved (8 * n + 1) 0 0 0 n [] it
  obtain ⟨s, r, -, -, he⟩ := huffDecode_splits it.done (it.left.take n) (it.left.drop n)
  rw [List.take_append_drop, List.length_take, Nat.min_eq_left h] at he
  change ∀ p, huffDecode it n = .ok p → _ at hmoved
  generalize huffDecode it n = x at he hmoved ⊢
  cases he with
  | padding _ => exact .ok (hmoved _ rfl)
  | abort _ _ _ => exact .assert
  | refused _ _ => exact .ok (hmoved _ rfl)

/-! ## Progress -/

/-- Operations that always return. -/
structure DecOps.Total (o : DecOps) : Prop where
  num : ∀ {it : HpkIter} {pfx : Nat}, it.left ≠ [] → 1 ≤ pfx → pfx ≤ 8 →
    Checked (fun p => Steps it p.1 p.2.2) (o.num it pfx)
  free : ∀ p, ∃ q, o.free p = .ok q

theorem numDecLoopOn_steps : ∀ (l done : Bytes) (b : UInt8) (result : UInt32) (s : UInt8),
    Checked (fun p => Steps ⟨done, b :: l⟩ p.1 p.2.2) (numDecLoopOn m done (b :: l) result s) := by
  intro l
  induction l with
  | nil =>
    intro done b result s
    exact .ok (.err ⟨[b], rfl, rfl⟩)
  | cons c l ih =>
    intro done b result s
    have hone : Moved ⟨done, b :: c :: l⟩ ⟨done ++ [b], c :: l⟩ := ⟨[b], rfl, rfl⟩
    rw [numDecLoopOn]
    simp only
    split
    · exact .ok (.err hone)
    · split
      · have := ih (done ++ [b]) c (result + m.shiftLeft (c &&& 0x7f).toUInt32 s) (s + 7)
        generalize numDecLoopOn m (done ++ [b]) (c :: l) _ (s + 7) = x at this ⊢
        cases this with
        | assert => exact .assert
        | ok h => exact .ok (.of_moved hone h)
      · exact .ok ⟨⟨[b, c], rfl, rfl⟩, fun _ => by simp, fun _ => rfl⟩

theorem Machine.total : m.ops.Total := by
  constructor
  · intro it pfx hne h1 h8
    obtain ⟨done, left⟩ := it
    obtain ⟨b, r, rfl⟩ := List.exists_cons_of_ne_nil hne
    refine .check_bind fun _ => .check_bind fun _ => .check_bind fun _ => ?_
    simp only
    split
    · exact .ok ⟨⟨[b], rfl, rfl⟩, fun _ => by simp, fun _ => rfl⟩
    · exact numDecLoopOn_steps m r done b _ 0
  · intro p
    cases p with
    | null => exact ⟨_, rfl⟩
    | mem b => exact ⟨_, rfl⟩
    | freed => exact ⟨_, rfl⟩

/-- A text that can be read. -/
def HpkTxt.Live (t : HpkTxt) : Prop := ∃ b huff, t = .of b huff

theorem tblGetField_live {ctx : HpkCtx} {i : UInt32} {key : Bool} {t : HpkTxt}
    (h : tblGetField ctx i key = some t) (h0 : i ≠ 0) : t.Live := by
  unfold tblGetField at h
  split at h
  · cases h
  · split at h
    · obtain ⟨n, hn⟩ := Nat.exists_eq_succ_of_ne_zero
        (fun e => h0 (UInt32.toNat_inj.mp e) : i.toNat ≠ 0)
      rw [hn, sttbl, List.getElem?_cons_succ, List.getElem?_map] at h
      obtain ⟨st, hst, rfl⟩ := Option.map_eq_some_iff.mp h
      obtain ⟨q, -, rfl⟩ := Option.map_eq_some_iff.mp hst
      cases key with
      | true => exact ⟨ascii q.1.1, false, rfl⟩
      | false => exact ⟨ascii q.1.2, false, rfl⟩
    · obtain ⟨dh, -, rfl⟩ := Option.map_eq_some_iff.mp h
      exact ⟨_, false, rfl⟩

theorem HpkTxt.Live.txtcpy {src : HpkTxt} (h : src.Live) (dst : HpkTxt) :
    Checked HpkTxt.Live (txtcpy dst src) := by
  obtain ⟨b, huff, rfl⟩ := h
  rw [txtcpy_of]
  exact .ok ⟨b, dst.huff, rfl⟩

theorem pushHeader_checked (ctx : HpkCtx) {h : HpkHdr} (hk : h.key.Live) (hv : h.value.Live) :
    Checked (fun _ => True) (pushHeader ctx h) := by
  obtain ⟨kb, kh, hk⟩ := hk
  obtain ⟨vb, vh, hv⟩ := hv
  have hpush : ∀ c, pushKey c h = .ok (.of kb kh) := by
    intro c
    rw [pushKey, hk]
    rfl
  refine .check_bind fun _ => ?_
  split
  · exact .ok trivial
  · obtain ⟨ctx', hpop, -⟩ := popWhile_total
      (fun c => c.maxsize - c.size < UInt32.ofNat (h.value.len + 32 + (HpkTxt.of kb kh).len))
      ctx.dyntbl.length ctx
    rw [hpush, ok_bind]
    simp only [hpop, ok_bind]
    split
    · rw [hpush, ok_bind, hv, deref_of, deref_of]
      exact .ok trivial
    · exact .ok trivial

section Progress

variable {o : DecOps} (ho : o.Total)

include ho

theorem strDecodeWith_steps {it : HpkIter} (hne : it.left ≠ []) (t : HpkTxt) :
    Checked (fun p => Steps it p.1 p.2.2 ∧ (p.1 ≠ .err → p.2.1.Live)) (strDecodeWith o it t) := by
  refine .check_bind fun _ => .bind (ho.num hne (by decide) (by decide)) ?_
  rintro ⟨ret, num, it1⟩ h1
  simp only at h1 ⊢
  have herr : ∀ {t' : HpkTxt} {it2 : HpkIter}, Moved it it2 →
      Steps it .err it2 ∧ (HpkResult.err ≠ .err → t'.Live) :=
    fun hm => ⟨.err hm, fun h => absurd rfl h⟩
  split
  · exact .ok (herr h1.moved)
  · rename_i hmore
    have hlt := h1.advanced (by rw [not_not.mp hmore]; decide)
    refine .check_bind fun _ => ?_
    split
    · exact .ok (herr h1.moved)
    · rename_i hlen
      split
      · refine .bind (huffDecode_checked (Nat.not_lt.mp hlen)) ?_
        rintro ⟨str, it2⟩ h2
        simp only at h2 ⊢
        split
        · exact .ok (herr (h1.moved.trans h2))
        · exact .ok ⟨⟨h1.moved.trans h2, fun _ => lt_of_lt_of_le hlt h2.le, fun _ => rfl⟩,
            fun _ => ⟨str, true, rfl⟩⟩
      · have h2 : Moved it1 ⟨it1.done ++ it1.left.take num.toNat, it1.left.drop num.toNat⟩ :=
          ⟨_, rfl, (List.take_append_drop _ _).symm⟩
        exact .ok ⟨⟨h1.moved.trans h2, fun _ => lt_of_lt_of_le hlt h2.le, fun _ => rfl⟩,
          fun _ => ⟨_, false, rfl⟩⟩

theorem dropKeyWith_steps {it it' : HpkIter} (hm : Moved it it') (h : HpkHdr) (ctx : HpkCtx) :
    Checked (fun p => Steps it p.1 p.2.2.1) (dropKeyWith o h it' ctx) := by
  obtain ⟨q, hq⟩ := ho.free h.key.ptr
  rw [dropKeyWith, hq, ok_bind]
  exact .ok (.err hm)

theorem decIdxWith_steps {it : HpkIter} (hne : it.left ≠ []) (ctx : HpkCtx) (h : HpkHdr) :
    Checked (fun p => Steps it p.1 p.2.2.1) (decIdxWith o ctx it h) := by
  refine .bind (ho.num hne (by decide) (by decide)) ?_
  rintro ⟨ret, num, it1⟩ h1
  simp only at h1 ⊢
  split
  · exact .ok (.err h1.moved)
  · rename_i hret
    split
    · exact .ok (.err h1.moved)
    · rename_i h0
      split
      · exact .ok (.err h1.moved)
      · rename_i t ht
        refine .bind ((tblGetField_live ht h0).txtcpy _) fun key _ => ?_
        split
        · exact dropKeyWith_steps ho h1.moved _ _
        · rename_i t' ht'
          refine .bind ((tblGetField_live ht' h0).txtcpy _) fun value _ => ?_
          exact .ok ⟨h1.moved, fun _ => h1.advanced hret, fun _ => rfl⟩

theorem decNameWith_steps {it : HpkIter} (hne : it.left ≠ []) (ctx : HpkCtx) (h : HpkHdr) :
    Checked (fun p => Moved it p.2.2.1 ∧ (p.1 ≠ .err → p.2.2.1.left ≠ [] ∧ p.2.1.key.Live))
      (decNameWith o ctx it h) := by
  unfold decNameWith
  split
  · rename_i h0
    split
    · exact .ok ⟨.refl it, fun he => absurd rfl he⟩
    · rename_i t ht
      refine .bind ((tblGetField_live ht h0).txtcpy _) fun key hk => ?_
      exact .ok ⟨.refl it, fun _ => ⟨hne, hk⟩⟩
  · refine .bind (strDecodeWith_steps ho hne h.key) ?_
    rintro ⟨ret, key, it1⟩ ⟨h1, hk⟩
    simp only at h1 hk ⊢
    split
    · obtain ⟨q, hq⟩ := ho.free key.ptr
      simp only [dropKeyWith, hq, ok_bind]
      exact .ok ⟨h1.moved, fun he => absurd rfl he⟩
    · rename_i hmore
      obtain rfl : ret = .more := not_not.mp hmore
      exact .ok ⟨h1.moved, fun _ => ⟨h1.left_ne_nil, hk (by decide)⟩⟩

theorem decLitWith_steps {it : HpkIter} (hne : it.left ≠ []) (ctx : HpkCtx) (h : HpkHdr)
    {pref : Nat} (h1 : 1 ≤ pref) (h8 : pref ≤ 8) (mustIndex : Bool) :
    Checked (fun p => Steps it p.1 p.2.2.1) (decLitWith o ctx it h pref mustIndex) := by
  refine .bind (ho.num hne h1 h8) ?_
  rintro ⟨ret, num, it1⟩ hs1
  simp only at hs1 ⊢
  split
  · exact .ok (.err hs1.moved)
  · rename_i hmore
    obtain rfl : ret = .more := not_not.mp hmore
    refine .bind (decNameWith_steps ho hs1.left_ne_nil ctx _) ?_
    rintro ⟨ret2, h2, it2, ctx2⟩ ⟨hm2, hlive2⟩
    simp only at hm2 hlive2 ⊢
    have hm := hs1.moved.trans hm2
    split
    · exact .ok (.err hm)
    · rename_i hret2
      obtain ⟨hne2, hkey⟩ := hlive2 hret2
      refine .bind (strDecodeWith_steps ho hne2 h2.value) ?_
      rintro ⟨ret3, value, it3⟩ ⟨hs3, hlive3⟩
      simp only at hs3 hlive3 ⊢
      split
      · exact dropKeyWith_steps ho (hm.trans hs3.moved) _ _
      · rename_i hret3
        have hpush : Checked (fun _ => True)
            (pushIf mustIndex ctx2 { h2 with value := value }) := by
          cases mustIndex with
          | true => exact pushHeader_checked ctx2 hkey (hlive3 hret3)
          | false => exact .ok trivial
        refine .bind hpush fun ctx3 _ => .ok ⟨hm.trans hs3.moved, fun _ => ?_, fun _ => rfl⟩
        exact lt_of_le_of_lt hm.le (hs3.advanced hret3)

theorem decResizeWith_steps {it : HpkIter} (hne : it.left ≠ []) (ctx : HpkCtx) (h : HpkHdr) :
    Checked (fun p => Steps it p.1 p.2.2.1) (decResizeWith o ctx it h) := by
  refine .bind (ho.num hne (by decide) (by decide)) ?_
  rintro ⟨ret, num, it1⟩ h1
  simp only at h1 ⊢
  split
  · exact .ok (.err h1.moved)
  · rename_i hdone
    obtain rfl : ret = .done := not_not.mp hdone
    obtain ⟨ctx', hr, -⟩ := hpkResizeTbl_total ctx num
    rw [hr, ok_bind]
    exact .ok h1

theorem hpkDecHdrWith_steps {it : HpkIter} (hne : it.left ≠ []) (ctx : HpkCtx) (h : HpkHdr) :
    Checked (fun p => Steps it p.1 p.2.2.1) (hpkDecHdrWith o ctx it h) := by
  unfold hpkDecHdrWith
  split
  · exact .assert
  · split
    · exact decIdxWith_steps ho hne ctx h
    · split
      · exact decLitWith_steps ho hne ctx _ (by decide) (by decide) _
      · split
        · exact decLitWith_steps ho hne ctx _ (by decide) (by decide) _
        · split
          · exact decLitWith_steps ho hne ctx _ (by decide) (by decide) _
          · split
            · exact decResizeWith_steps ho hne ctx h
            · exact .ok (.err (.refl it))

end Progress

/-! ## The characters that `huff_decode` writes -/

/-- A computation with what it has written when it ends, in whatever way. -/
abbrev Traced (α : Type) := Bytes × Res α

/-- The lookup of the loop, which goes on with `next`. -/
def huffTraceTurn (next : Nat → UInt64 → Nat → Bytes → Traced (Bytes × HpkIter)) (tbl : Nat)
    (pack : UInt64) (pl : Nat) (str : Bytes) (it : HpkIter) : Traced (Bytes × HpkIter) :=
  if (stbl tbl).msk = 0 then (str, .error .assert)
  else
    match (stbl tbl).syms[mask pack (stbl tbl).msk]? with
    | none => (str, .error .ub)
    | some sym =>
      if (stbl tbl).msk < sym.csm then (str, .error .assert)
      else if sym.csm = 0 ∨ pl < sym.csm then (str, .ok ([], it))
      else if 8 < sym.csm then (str, .error .assert)
      else
        match sym.nxt with
        | some nxt => next nxt (pack <<< UInt64.ofNat sym.csm) (pl - sym.csm) str
        | none => next 0 (pack <<< UInt64.ofNat sym.csm) (pl - sym.csm) (str ++ [sym.chr])

/-- The loop of `huff_decode` with what it has written into `str` when it ends. -/
def huffTraceLoop : Nat → Nat → UInt64 → Nat → Nat → Bytes → HpkIter → Traced (Bytes × HpkIter)
  | 0, _, _, _, _, str, _ => (str, .error .fuel)
  | n + 1, tbl, pack, pl, ilen, str, it =>
    if ilen = 0 ∧ pl = 0 then (str, .ok (str, it))
    else if pl < (stbl tbl).msk ∧ ilen = 0 ∧ (pl = 0 ∨ mask pack pl = 2 ^ pl - 1) then
      (str, check (tbl = 0) >>= fun _ => .ok (str, it))
    else if pl < (stbl tbl).msk then
      match fillPack ilen pack pl it with
      | .error e => (str, .error e)
      | .ok p =>
        huffTraceTurn (fun tbl pack pl str => huffTraceLoop n tbl pack pl p.2.2.1 str p.2.2.2) tbl
          p.1 p.2.1 str p.2.2.2
    else
      huffTraceTurn (fun tbl pack pl str => huffTraceLoop n tbl pack pl ilen str it) tbl pack pl str
        it

def huffTrace (it : HpkIter) (ilen : Nat) : Traced (Bytes × HpkIter) :=
  huffTraceLoop (8 * ilen + 1) 0 0 0 ilen [] it

theorem huffTraceTurn_snd {n ilen : Nat} {it : HpkIter}
    {next : Nat → UInt64 → Nat → Bytes → Traced (Bytes × HpkIter)}
    (hnext : ∀ tbl pack pl str, (next tbl pack pl str).2 = huffDecLoop n tbl pack pl ilen str it)
    (tbl : Nat) (pack : UInt64) (pl : Nat) (str : Bytes) :
    (huffTraceTurn next tbl pack pl str it).2 = huffTurn n tbl pack pl ilen str it := by
  rw [huffTraceTurn, huffTurn]
  by_cases hm : (stbl tbl).msk = 0
  · rw [if_pos hm, decide_eq_false (not_not.mpr hm)]
    rfl
  · rw [if_neg hm, decide_eq_true hm, check_true, ok_bind]
    cases (stbl tbl).syms[mask pack (stbl tbl).msk]? with
    | none => rfl
    | some sym =>
      simp only
      by_cases hle : sym.csm ≤ (stbl tbl).msk
      · rw [if_neg (by omega), decide_eq_true hle, check_true, ok_bind]
        by_cases hshort : sym.csm = 0 ∨ pl < sym.csm
        · rw [if_pos hshort, if_pos hshort]
          rfl
        · rw [if_neg hshort, if_neg hshort]
          by_cases h8 : sym.csm ≤ 8
          · rw [if_neg (by omega), decide_eq_true h8, check_true, ok_bind]
            cases sym.nxt with
            | some nxt => exact hnext _ _ _ _
            | none => exact hnext _ _ _ _
          · rw [if_pos (by omega), decide_eq_false h8]
            rfl
      · rw [if_pos (by omega), decide_eq_false hle]
        rfl

theorem huffTraceLoop_snd : ∀ (n tbl : Nat) (pack : UInt64) (pl ilen : Nat) (str : Bytes)
    (it : HpkIter), (huffTraceLoop n tbl pack pl ilen str it).2 =
      huffDecLoop n tbl pack pl ilen str it := by
  intro n
  induction n with
  | zero => intro tbl pack pl ilen str it; rfl
  | succ n ih =>
    intro tbl pack pl ilen str it
    rw [huffTraceLoop, huffDecLoop_succ]
    split
    · rfl
    · split
      · rfl
      · split
        · cases fillPack ilen pack pl it with
          | error e => rfl
          | ok p => exact huffTraceTurn_snd (fun _ _ _ _ => ih _ _ _ _ _ _) _ _ _ _
        · exact huffTraceTurn_snd (fun _ _ _ _ => ih _ _ _ _ _ _) _ _ _ _

theorem huffTrace_snd (it : HpkIter) (n : Nat) : (huffTrace it n).2 = huffDecode it n :=
  huffTraceLoop_snd _ _ _ _ _ _ _

/-- Every entry of the first table takes at least five bits. -/
theorem root_csm : ∀ e ∈ (stbl 0).syms, 5 ≤ e.csm := by
  have hall : ((fmtTbl ((genFor 0).map (·.2))).syms.all fun e => (5).ble e.csm) = true := by
    decide +kernel
  intro e he
  rw [stbl_eq] at he
  exact Nat.le_of_ble_eq_true (List.all_eq_true.mp hall e he)

/-- The bits that are accounted for: five for each character, and five for a code that has left the
first table. -/
def spentBits (tbl : Nat) (str : Bytes) : Nat := 5 * str.length + if tbl = 0 then 0 else 5

theorem huffTraceTurn_le {next : Nat → UInt64 → Nat → Bytes → Traced (Bytes × HpkIter)}
    {b ilen : Nat} (hnext : ∀ tbl pack pl str, spentBits tbl str + pl + 8 * ilen ≤ b →
      5 * (next tbl pack pl str).1.length ≤ b) {tbl : Nat} {pack : UInt64} {pl : Nat} {str : Bytes}
    {it : HpkIter} (h : spentBits tbl str + pl + 8 * ilen ≤ b) :
    5 * (huffTraceTurn next tbl pack pl str it).1.length ≤ b := by
  have hstr : 5 * str.length ≤ b := by
    rw [spentBits] at h
    omega
  rw [huffTraceTurn]
  split
  · exact hstr
  · split
    · exact hstr
    · rename_i sym hsym
      split
      · exact hstr
      · split
        · exact hstr
        · rename_i hshort
          split
          · exact hstr
          · -- at the first table the code takes five bits, behind it they have been counted
            have hroot : tbl = 0 → 5 ≤ sym.csm := by
              rintro rfl
              exact root_csm sym (List.mem_of_getElem? hsym)
            have hcount : 5 * (str.length + 1) + (pl - sym.csm) + 8 * ilen ≤ b := by
              rw [spentBits] at h
              split at h
              · rename_i h0
                have := hroot h0
                omega
              · omega
            split
            · refine hnext _ _ _ _ ?_
              rw [spentBits]
              split <;> omega
            · refine hnext _ _ _ _ ?_
              rw [spentBits, if_pos rfl, List.length_append, List.length_singleton]
              omega

theorem huffTraceLoop_le : ∀ (n tbl : Nat) (pack : UInt64) (pl ilen : Nat) (str : Bytes)
    (it : HpkIter) (b : Nat), spentBits tbl str + pl + 8 * ilen ≤ b →
    5 * (huffTraceLoop n tbl pack pl ilen str it).1.length ≤ b := by
  intro n
  induction n with
  | zero =>
    intro tbl pack pl ilen str it b h
    rw [spentBits] at h
    exact (by omega : 5 * str.length ≤ b)
  | succ n ih =>
    intro tbl pack pl ilen str it b h
    have hstr : 5 * str.length ≤ b := by
      rw [spentBits] at h
      omega
    rw [huffTraceLoop]
    split
    · exact hstr
    · split
      · exact hstr
      · split
        · cases hf : fillPack ilen pack pl it with
          | error e => exact hstr
          | ok p =>
            have hp := (fillPack_moved _ _ _ _ _ hf).2
            exact huffTraceTurn_le (fun _ _ _ _ hb => ih _ _ _ _ _ _ _ hb) (by omega)
        · exact huffTraceTurn_le (fun _ _ _ _ hb => ih _ _ _ _ _ _ _ hb) h

/-- `huff_decode` on `n` bytes writes no more than `str_decode` has allocated for it. -/
theorem huffTrace_le (it : HpkIter) (n : Nat) : (huffTrace it n).1.length ≤ 8 * n / 5 := by
  have := huffTraceLoop_le (8 * n + 1) 0 0 0 n [] it (8 * n) (by simp [spentBits])
  rw [Nat.le_div_iff_mul_le (by decide), Nat.mul_comm]
  exact this

end Hpack
end VTest
