import VTest.Hpack.Huffman

/-!
# VTest.Hpack.Codec

The header coder of `vtc_h2_hpack.c`: prefixed integers, string literals, and the five
representations `HPK_EncHdr` writes and `HPK_DecHdr` reads.

A function that returns `enum hpk_result` returns it here next to what it changed, also when it is
`hpk_err`: the source has then moved its cursor and written some of its output already.
-/

namespace VTest
namespace Hpack

/-! ## Integers -/

/-- The `do ... while` loop of `num_decode`. The cursor stands on the byte before the next group;
a shift by 32 or more is undefined. -/
def numDecLoop (done : Bytes) : Bytes → UInt32 → Nat → Res (HpkResult × UInt32 × HpkIter)
  | [], _, _ => .error .ub
  | b :: r, result, shift =>
    match r with
    | [] => .ok (.err, result, ⟨done ++ [b], []⟩)
    | c :: r' =>
      if 32 ≤ shift then .error .ub
      else if (0xffffffff - result) >>> UInt32.ofNat shift < (c &&& 0x7f).toUInt32 then
        .ok (.err, result, ⟨done ++ [b], c :: r'⟩)
      else
        let result := result + ((c &&& 0x7f).toUInt32 <<< UInt32.ofNat shift)
        if c &&& 0x80 ≠ 0 then numDecLoop (done ++ [b]) (c :: r') result (shift + 7)
        else
          let it : HpkIter := ⟨done ++ [b, c], r'⟩
          .ok (it.result, result, it)

def numDecode (it : HpkIter) (pfx : Nat) : Res (HpkResult × UInt32 × HpkIter) := do
  check (!it.left.isEmpty)
  check (pfx ≠ 0)
  check (pfx ≤ 8)
  match it.left with
  | [] => .error .ub
  | b :: r =>
    let result := (b &&& (0xff >>> UInt8.ofNat (8 - pfx))).toUInt32
    if result.toNat < 2 ^ pfx - 1 then
      let it : HpkIter := ⟨it.done ++ [b], r⟩
      return (it.result, result, it)
    else numDecLoop it.done (b :: r) result 0

/-- The `do ... while` loop of `num_encode`, with the bytes behind the cursor. -/
def numEncLoop (done : Bytes) : Bytes → UInt32 → Res (HpkResult × HpkIter)
  | [], _ => .ok (.err, ⟨done, []⟩)
  | _ :: r, num =>
    let b := (num % 128).toUInt8 ||| 0x80
    if num / 128 ≠ 0 then numEncLoop (done ++ [b]) r (num / 128)
    else
      let it : HpkIter := ⟨done ++ [b &&& 127], r⟩
      .ok (it.result, it)

def numEncode (it : HpkIter) (pfx : Nat) (num : UInt32) : Res (HpkResult × HpkIter) := do
  check (pfx ≠ 0)
  check (pfx ≤ 8)
  check (!it.left.isEmpty)
  match it.left with
  | [] => .error .ub
  | b :: r =>
    let pmax : UInt8 := UInt8.ofNat (2 ^ pfx - 1)
    let b := b &&& UInt8.ofNat (0xff * 2 ^ pfx)
    if num ≤ pmax.toUInt32 then
      let it : HpkIter := ⟨it.done ++ [b ||| num.toUInt8], r⟩
      return (it.result, it)
    else if r.isEmpty then return (.err, ⟨it.done, b :: r⟩)
    else numEncLoop (it.done ++ [b ||| pmax]) r (num - pmax.toUInt32)

/-! ## String literals -/

/-- The bytes a string literal is made of. Nothing is read for a text of length 0. -/
def HpkTxt.read (t : HpkTxt) : Res Bytes := if t.len = 0 then .ok [] else t.deref

def strEncode (it : HpkIter) (t : HpkTxt) : Res (HpkResult × HpkIter) := do
  let str ← t.read
  let slen := huffSimulate str t.huff
  check (!it.left.isEmpty)
  let (ret, it) ← numEncode ⟨it.done, (if t.huff then 0x80 else 0) :: it.left.tail⟩ 7
    (UInt32.ofNat slen)
  if ret = .err then return (.err, it)
  if it.left.length < slen then return (.err, it)
  if t.huff then huffEncode it str
  else
    let it : HpkIter := ⟨it.done ++ str, it.left.drop slen⟩
    return (it.result, it)

/-- The text is returned as `str_decode` leaves it: when Huffman decoding fails, it points to a
freed block. -/
def strDecode (it : HpkIter) (t : HpkTxt) : Res (HpkResult × HpkTxt × HpkIter) := do
  check (!it.left.isEmpty)
  let huff := it.left.headD 0 &&& 0x80
  let (ret, num, it) ← numDecode it 7
  if ret ≠ .more then return (.err, t, it)
  check (!it.left.isEmpty)
  if it.left.length < num.toNat then return (.err, t, it)
  if huff ≠ 0 then
    let (str, it) ← huffDecode it num.toNat
    if str.isEmpty then return (.err, { t with ptr := .freed }, it)
    return (it.result, .of str true, it)
  else
    let it' : HpkIter := ⟨it.done ++ it.left.take num.toNat, it.left.drop num.toNat⟩
    return (it'.result, .of (it.left.take num.toNat), it')

def txtcpy (dst src : HpkTxt) : Res HpkTxt := do
  let b ← src.deref
  return { dst with ptr := .mem b, len := src.len }

/-! ## Headers -/

/-- `free(header->key.ptr); return (hpk_err);` -/
def dropKey (header : HpkHdr) (it : HpkIter) (ctx : HpkCtx) :
    Res (HpkResult × HpkHdr × HpkIter × HpkCtx) := do
  let p ← header.key.ptr.free
  return (.err, { header with key := { header.key with ptr := p } }, it, ctx)

/-- Indexed Header Field. -/
def decIdx (ctx : HpkCtx) (it : HpkIter) (header : HpkHdr) :
    Res (HpkResult × HpkHdr × HpkIter × HpkCtx) := do
  let header := { header with t := .idx }
  let (ret, num, it) ← numDecode it 7
  if ret = .err then return (.err, header, it, ctx)
  if num = 0 then return (.err, header, it, ctx)
  match tblGetKey ctx num with
  | none => return (.err, header, it, ctx)
  | some t =>
    let key ← txtcpy header.key t
    let header := { header with key := key }
    match tblGetValue ctx num with
    | none => dropKey header it ctx
    | some t =>
      let value ← txtcpy header.value t
      return (it.result, { header with value := value }, it, ctx)

/-- The name of a literal: a copy of the one the index stands for, or a string literal. -/
def decName (ctx : HpkCtx) (it : HpkIter) (header : HpkHdr) :
    Res (HpkResult × HpkHdr × HpkIter × HpkCtx) :=
  if header.i ≠ 0 then
    match tblGetKey ctx header.i with
    | none => .ok (.err, header, it, ctx)
    | some t => do
      let key ← txtcpy header.key t
      return (.more, { header with key := key }, it, ctx)
  else do
    let (ret, key, it) ← strDecode it header.key
    let header := { header with key := key }
    if ret ≠ .more then dropKey header it ctx
    else return (.more, header, it, ctx)

/-- `if (must_index) push_header(ctx, h);` -/
def pushIf (mustIndex : Bool) (ctx : HpkCtx) (h : HpkHdr) : Res HpkCtx :=
  if mustIndex then pushHeader ctx h else .ok ctx

/-- The three literal representations, which differ in the prefix of the index and in whether the
header goes into the table. -/
def decLit (ctx : HpkCtx) (it : HpkIter) (header : HpkHdr) (pref : Nat) (mustIndex : Bool) :
    Res (HpkResult × HpkHdr × HpkIter × HpkCtx) := do
  let (ret, num, it) ← numDecode it pref
  if ret ≠ .more then return (.err, header, it, ctx)
  let (ret, header, it, ctx) ← decName ctx it { header with i := num }
  if ret = .err then return (.err, header, it, ctx)
  let (ret, value, it) ← strDecode it header.value
  let header := { header with value := value }
  if ret = .err then dropKey header it ctx
  else
    let ctx ← pushIf mustIndex ctx header
    return (it.result, header, it, ctx)

/-- Dynamic Table Size Update. -/
def decResize (ctx : HpkCtx) (it : HpkIter) (header : HpkHdr) :
    Res (HpkResult × HpkHdr × HpkIter × HpkCtx) := do
  let (ret, num, it) ← numDecode it 5
  if ret ≠ .done then return (.err, header, it, ctx)
  let ctx ← hpkResizeTbl ctx num
  return (.done, header, it, ctx)

def hpkDecHdr (ctx : HpkCtx) (it : HpkIter) (header : HpkHdr) :
    Res (HpkResult × HpkHdr × HpkIter × HpkCtx) :=
  match it.left with
  | [] => .error .assert
  | b :: _ =>
    if b &&& 128 ≠ 0 then decIdx ctx it header
    else if b >>> 6 = 1 then decLit ctx it { header with t := .inc } 6 true
    else if b >>> 4 = 0 then decLit ctx it { header with t := .not } 4 false
    else if b >>> 4 = 1 then decLit ctx it { header with t := .never } 4 false
    else if b >>> 5 = 1 then decResize ctx it header
    else .ok (.err, header, it, ctx)

/-- `*iter->buf = b;` -/
def setCur (it : HpkIter) (b : UInt8) : Res HpkIter :=
  match it.left with
  | [] => .error .ub
  | _ :: r => .ok ⟨it.done, b :: r⟩

/-- `iter->buf++;` -/
def advance (it : HpkIter) : HpkIter := ⟨it.done ++ it.left.take 1, it.left.drop 1⟩

def encIdx (ctx : HpkCtx) (it : HpkIter) (h : HpkHdr) : Res (HpkResult × HpkIter × HpkCtx) := do
  let it ← setCur it 0x80
  let (ret, it) ← numEncode it 7 h.i
  check (ret ≠ .err)
  return (it.result, it, ctx)

/-- The name of a literal: its index, or a string literal behind the first byte. -/
def encName (it : HpkIter) (h : HpkHdr) (pref : Nat) : Res (HpkResult × HpkIter) :=
  if h.i ≠ 0 then numEncode it pref h.i else strEncode (advance it) h.key

/-- The three literal representations, which differ in the first byte, in the prefix of the index
and in whether the header goes into the table. -/
def encLit (ctx : HpkCtx) (it : HpkIter) (h : HpkHdr) (b : UInt8) (pref : Nat) (mustIndex : Bool) :
    Res (HpkResult × HpkIter × HpkCtx) := do
  let it ← setCur it b
  let (ret, it) ← encName it h pref
  if ret ≠ .more then return (.err, it, ctx)
  let (ret, it) ← strEncode it h.value
  if ret = .err then return (.err, it, ctx)
  let ctx ← pushIf mustIndex ctx h
  return (ret, it, ctx)

def hpkEncHdr (ctx : HpkCtx) (it : HpkIter) (h : HpkHdr) : Res (HpkResult × HpkIter × HpkCtx) :=
  match h.t with
  | .idx => encIdx ctx it h
  | .inc => encLit ctx it h 0x40 6 true
  | .not => encLit ctx it h 0x00 4 false
  | .never => encLit ctx it h 0x10 4 false
  | .unset => .error .assert

def gethpkIterLen (it : HpkIter) : Nat := it.done.length

end Hpack
end VTest
