import VTest.Lib.Weighted

/-!
# VTest.Hpack.Table

The index tables of `vtc_h2_tbl.c`: the static table, the dynamic table with its byte accounting,
and the lookup by index that spans both.

`VTAILQ` lists are Lean lists with the newest entry first. `uint32_t` is `UInt32`, so that the
sums and differences of the source wrap where the source's do. The fields of a stored header that
nobody reads back (`huff`, and `i` before `HPK_GetHdr` sets it) are left out of `DynHdr`.
-/

namespace VTest
namespace Hpack

inductive HpkIndexed where
  | unset
  | idx
  | inc
  | not
  | never
  deriving DecidableEq, Repr

/-- A `char *` of the tables: null, a live block, or a block that was given to `free`. -/
inductive Ptr where
  | null
  | mem (b : Bytes)
  | freed
  deriving DecidableEq, Repr

/-- `free(p)`. The pointer keeps its value, so a second call is undefined. -/
def Ptr.free : Ptr → Res Ptr
  | .null => .ok .null
  | .mem _ => .ok .freed
  | .freed => .error .ub

/-- `struct hpk_txt`. -/
structure HpkTxt where
  ptr : Ptr := .null
  len : Nat := 0
  huff : Bool := false
  deriving DecidableEq, Repr

/-- A live text of exactly the bytes `b`. -/
def HpkTxt.of (b : Bytes) (huff : Bool := false) : HpkTxt where
  ptr := .mem b
  len := b.length
  huff := huff

/-- Reading the `len` bytes behind the pointer. -/
def HpkTxt.deref (t : HpkTxt) : Res Bytes :=
  match t.ptr with
  | .mem b => if t.len ≤ b.length then .ok (b.take t.len) else .error .ub
  | _ => .error .ub

structure HpkHdr where
  key : HpkTxt := {}
  value : HpkTxt := {}
  t : HpkIndexed := .unset
  i : UInt32 := 0
  deriving DecidableEq, Repr

/-- An entry of the dynamic table. -/
structure DynHdr where
  key : Bytes
  value : Bytes
  deriving DecidableEq, Repr

/-- What an entry counts for in the size of the table. -/
def DynHdr.len (h : DynHdr) : Nat := h.key.length + h.value.length + 32

structure HpkCtx where
  dyntbl : List DynHdr
  maxsize : UInt32
  size : UInt32
  deriving DecidableEq, Repr

/-! ## The static table -/

def statHdrs : List (String × String) := [
  (":authority", ""),
  (":method", "GET"),
  (":method", "POST"),
  (":path", "/"),
  (":path", "/index.html"),
  (":scheme", "http"),
  (":scheme", "https"),
  (":status", "200"),
  (":status", "204"),
  (":status", "206"),
  (":status", "304"),
  (":status", "400"),
  (":status", "404"),
  (":status", "500"),
  ("accept-charset", ""),
  ("accept-encoding", "gzip,deflate"),
  ("accept-language", ""),
  ("accept-ranges", ""),
  ("accept", ""),
  ("access-control-allow-origin", ""),
  ("age", ""),
  ("allow", ""),
  ("authorization", ""),
  ("cache-control", ""),
  ("content-disposition", ""),
  ("content-encoding", ""),
  ("content-language", ""),
  ("content-length", ""),
  ("content-location", ""),
  ("content-range", ""),
  ("content-type", ""),
  ("cookie", ""),
  ("date", ""),
  ("etag", ""),
  ("expect", ""),
  ("expires", ""),
  ("from", ""),
  ("host", ""),
  ("if-match", ""),
  ("if-modified-since", ""),
  ("if-none-match", ""),
  ("if-range", ""),
  ("if-unmodified-since", ""),
  ("last-modified", ""),
  ("link", ""),
  ("location", ""),
  ("max-forwards", ""),
  ("proxy-authenticate", ""),
  ("proxy-authorization", ""),
  ("range", ""),
  ("referer", ""),
  ("refresh", ""),
  ("retry-after", ""),
  ("server", ""),
  ("set-cookie", ""),
  ("strict-transport-security", ""),
  ("transfer-encoding", ""),
  ("user-agent", ""),
  ("vary", ""),
  ("via", ""),
  ("www-authenticate", "")]

def statHdr (s : (String × String) × Nat) : HpkHdr where
  key := .of (ascii s.1.1)
  value := .of (ascii s.1.2)
  t := .idx
  i := UInt32.ofNat s.2

/-- Entry 0 is a placeholder without a name and a value. -/
def sttbl : List HpkHdr := { t := .idx } :: (statHdrs.zipIdx 1).map statHdr

/-! ## Lookup -/

/-- The `VTAILQ_FOREACH` loop of the lookups, with the value of `idx` it leaves: the counter is
decremented once more on the way out, so that it has wrapped when an entry was found. -/
def walk : List DynHdr → UInt32 → Option DynHdr × UInt32
  | [], idx => (none, idx)
  | dh :: l, idx => if idx = 0 then (some dh, idx - 1) else walk l (idx - 1)

def findDyn (ctx : HpkCtx) (idx : UInt32) : Option DynHdr :=
  match walk ctx.dyntbl (idx - 62) with
  | (some dh, idx) => if idx ≠ 0 then some dh else none
  | (none, _) => none

def tblGetField (ctx : HpkCtx) (idx : UInt32) (key : Bool) : Option HpkTxt :=
  if 61 + ctx.size < idx then none
  else if idx ≤ 61 then sttbl[idx.toNat]?.map fun h => if key then h.key else h.value
  else (findDyn ctx idx).map fun dh => .of (if key then dh.key else dh.value)

def tblGetKey (ctx : HpkCtx) (idx : UInt32) : Option HpkTxt := tblGetField ctx idx true

def tblGetValue (ctx : HpkCtx) (idx : UInt32) : Option HpkTxt := tblGetField ctx idx false

/-- The header of an entry, with the index `HPK_GetHdr` stores in it. -/
def DynHdr.header (dh : DynHdr) (oi : UInt32) : HpkHdr where
  key := .of dh.key
  value := .of dh.value
  t := .idx
  i := oi

def hpkGetHdr (ctx : HpkCtx) (idx : UInt32) : Option HpkHdr :=
  if 61 + ctx.size < idx then none
  else if idx ≤ 61 then sttbl[idx.toNat]?
  else (findDyn ctx idx).map fun dh => dh.header idx

def hpkGetTblSize (ctx : HpkCtx) : UInt32 := ctx.size

def hpkGetTblMaxSize (ctx : HpkCtx) : UInt32 := ctx.maxsize

def hpkGetTblLength (ctx : HpkCtx) : UInt32 := ctx.dyntbl.foldl (fun l _ => l + 1) 0

/-! ## Insertion and eviction -/

def hpkNewCtx (maxsize : UInt32) : HpkCtx := { dyntbl := [], maxsize := maxsize, size := 0 }

def popHeader (ctx : HpkCtx) : Res HpkCtx :=
  match ctx.dyntbl.getLast? with
  | none => .error .assert
  | some h =>
    .ok { ctx with
      dyntbl := ctx.dyntbl.dropLast
      size := ctx.size - UInt32.ofNat (h.key.length + h.value.length + 32) }

/-- `while (!VTAILQ_EMPTY(&ctx->dyntbl) && c) pop_header(ctx);`. Each turn takes one entry out, so
the length of the list is enough fuel. -/
def popWhile (c : HpkCtx → Bool) : Nat → HpkCtx → Res HpkCtx
  | 0, ctx => .ok ctx
  | n + 1, ctx =>
    if !ctx.dyntbl.isEmpty && c ctx then do
      let ctx ← popHeader ctx
      popWhile c n ctx
    else .ok ctx

/-- The name an insertion takes: the header's own, or the one its index stands for now. -/
def pushKey (ctx : HpkCtx) (oh : HpkHdr) : Res HpkTxt :=
  match oh.key.ptr with
  | .null =>
    if oh.i = 0 then .error .assert
    else
      match hpkGetHdr ctx oh.i with
      | none => .error .assert
      | some ih => .ok ih.key
  | _ => .ok oh.key

def pushHeader (ctx : HpkCtx) (oh : HpkHdr) : Res HpkCtx := do
  check (ctx.size ≤ ctx.maxsize)
  if ctx.maxsize = 0 then return ctx
  let key ← pushKey ctx oh
  let len := UInt32.ofNat (oh.value.len + 32 + key.len)
  let ctx ← popWhile (fun c => c.maxsize - c.size < len) ctx.dyntbl.length ctx
  if len ≤ ctx.maxsize - ctx.size then
    -- The index is looked up again: the eviction may have taken the entry it stood for.
    let key ← pushKey ctx oh
    let k ← key.deref
    let v ← oh.value.deref
    return { ctx with dyntbl := ⟨k, v⟩ :: ctx.dyntbl, size := ctx.size + len }
  else return ctx

def hpkResizeTbl (ctx : HpkCtx) (num : UInt32) : Res HpkCtx :=
  popWhile (fun c => c.maxsize < c.size) ctx.dyntbl.length { ctx with maxsize := num }

end Hpack
end VTest
