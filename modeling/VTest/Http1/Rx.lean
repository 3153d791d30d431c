import VTest.Lib.Text

/-!
# VTest.Http1.Rx

How `vtc_http.c` receives an HTTP/1 message: `http_rxchar` fills the receive buffer from the
connection, `http_rxhdr` stops behind the empty line, `http_splitheader` cuts the header in place,
and `http_swallow_body` reads the body.

The receive buffer is a memory of fixed size with old content in it; pointers into it are offsets.
A string that is cut out of it is read where it stands. What `poll` and `read` do is a list of
events. Log entries are left out, except that a fatal one ends the test.
-/

namespace VTest
namespace Http1

/-! ## Characters -/

/-- `vct_issp`. -/
def issp (b : UInt8) : Bool := b = 9 || b = 32

/-- `vct_islws`. -/
def islws (b : UInt8) : Bool := issp b || b = 10 || b = 13

/-- `vct_iscrlf` at the start of a memory that reaches to the end of the buffer. -/
def iscrlf : Bytes → Nat
  | 13 :: 10 :: _ => 2
  | 10 :: _ => 1
  | _ => 0

/-! ## The connection -/

/-- What a turn of `http_rxchar` meets: `poll` is interrupted, times out or fails, `read` fails, or
`read` returns `k + 1` bytes if there are as many. -/
inductive RxTurn where
  | eintr
  | timeout
  | pollFailed
  | readFailed
  | part (k : Nat)
  deriving DecidableEq, Repr

/-- The receiving part of `struct http`, and its connection: the bytes that are still to come, and
the turns. When there are no more turns, every `read` returns all it is asked for. -/
structure Http where
  mem : Bytes
  rxp : Nat := 0
  body : Option Nat := none
  bodyl : Int := 0
  bodylen : Bytes := []
  chunklen : Bytes := []
  resp : List (Option Nat) := []
  fatal : Bool := true
  headMethod : Bool := false
  stream : Bytes := []
  turns : List RxTurn := []

/-- `hp->rx_p += i; *hp->rx_p = '\0'` behind a `read` of `got`. -/
def Http.store (hp : Http) (got : Bytes) : Http :=
  { hp with
    mem := (put hp.mem hp.rxp got).set (hp.rxp + got.length) 0
    rxp := hp.rxp + got.length
    stream := hp.stream.drop got.length }

/-- `vtc_log(hp->vl, hp->fatal, ...)`, and then `return (-1)`. -/
def Http.failed (hp : Http) : Res (Int × Http) :=
  if hp.fatal then .error .fatal else .ok (-1, hp)

/-- A `read` that returns 0. -/
def Http.eof (hp : Http) (eof : Bool) : Res (Int × Http) :=
  if eof then .ok (0, hp) else hp.failed

/-- `http_rxchar` once there are no more turns. -/
def rxcharRest (hp : Http) (n : Nat) (eof : Bool) : Res (Int × Http) :=
  if n = 0 then .ok (1, hp)
  else do
    check (hp.rxp + n < hp.mem.length)
    if n ≤ hp.stream.length then .ok (1, hp.store (hp.stream.take n))
    else if hp.stream.isEmpty then hp.eof eof
    else (hp.store hp.stream).eof eof

def rxcharLoop (eof : Bool) : List RxTurn → Http → Nat → Res (Int × Http)
  | [], hp, n => rxcharRest { hp with turns := [] } n eof
  | t :: turns, hp, n =>
    if n = 0 then .ok (1, { hp with turns := t :: turns })
    else
      match t with
      | .eintr => rxcharLoop eof turns hp n
      | .timeout => if hp.fatal then .error .fatal else rxcharLoop eof turns hp n
      | .pollFailed => if hp.fatal then .error .fatal else rxcharLoop eof turns hp n
      | .readFailed => do
        check (hp.rxp + n < hp.mem.length)
        Http.failed { hp with turns := turns }
      | .part k => do
        check (hp.rxp + n < hp.mem.length)
        if hp.stream.isEmpty then Http.eof { hp with turns := turns } eof
        else
          let got := hp.stream.take (min (k + 1) n)
          rxcharLoop eof turns (hp.store got) (n - got.length)

def httpRxchar (hp : Http) (n : Int) (eof : Bool) : Res (Int × Http) :=
  rxcharLoop eof hp.turns hp n.toNat

/-! ## The header -/

/-- `s` in `http_rxhdr`. -/
inductive HdrSt where
  | text
  | cr
  | nl
  | nlcr
  deriving DecidableEq, Repr

/-- The next state, or the end of the header. -/
def hdrNext (s : HdrSt) (b : UInt8) : Option HdrSt :=
  if s = .text ∧ b = 13 then some .cr
  else if (s = .text ∨ s = .cr) ∧ b = 10 then some .nl
  else if s = .nl ∧ b = 13 then some .nlcr
  else if (s = .nl ∨ s = .nlcr) ∧ b = 10 then none
  else some .text

/-- Every turn takes a byte off the connection, so the fuel is that of its bytes. -/
def rxhdrLoop : Nat → HdrSt → Http → Res (Int × Http)
  | 0, _, _ => .error .fuel
  | fuel + 1, s, hp => do
    let (i, hp') ← httpRxchar hp 1 true
    if i < 1 then return (i, hp')
    else
      match hdrNext s (hp'.mem.getD hp.rxp 0) with
      | none => return (i, hp')
      | some s => rxhdrLoop fuel s hp'

def undef : Bytes := ascii "<undef>"

def httpRxhdr (hp : Http) : Res Http := do
  let (i, hp) ← rxhdrLoop (hp.stream.length + 1) .text
    { hp with rxp := 0, mem := hp.mem.set 0 0, body := none, bodylen := undef }
  fatalIf (hp.fatal && i < 1)
  return { hp with mem := hp.mem.set hp.rxp 0, body := some hp.rxp }

/-- A pointer into the buffer: what is in front of it, and what it points to. -/
structure Cur where
  done : Bytes
  rest : Bytes

/-- `while (f(*p)) p++;` -/
def skipWhile (f : UInt8 → Bool) (done : Bytes) : Bytes → Res Cur
  | [] => .error .ub
  | b :: r => if f b then skipWhile f (done ++ [b]) r else .ok ⟨done, b :: r⟩

/-- `while (!vct_iscrlf(p, hp->rx_e)) p++;`, which with `nul` also stops at a NUL. -/
def skipLine (nul : Bool) (done : Bytes) : Bytes → Res Cur
  | [] => .error (if nul then .ub else .assert)
  | b :: r =>
    if nul && b = 0 then .ok ⟨done, b :: r⟩
    else if iscrlf (b :: r) ≠ 0 then .ok ⟨done, b :: r⟩
    else skipLine nul (done ++ [b]) r

/-- `*p++ = '\0';` -/
def Cur.cut (c : Cur) : Res Cur :=
  match c.rest with
  | [] => .error .ub
  | _ :: r => .ok ⟨c.done ++ [0], r⟩

/-- `q = p; p = vct_skipcrlf(p, hp->rx_e); *q = '\0';` -/
def Cur.cutLine (c : Cur) : Res Cur :=
  match c.rest with
  | [] => .error .ub
  | 13 :: 10 :: r => .ok ⟨c.done ++ [0, 10], r⟩
  | 10 :: r => .ok ⟨c.done ++ [0], r⟩
  | _ :: r => .ok ⟨c.done, 0 :: r⟩

def Cur.at (c : Cur) : Option Nat := some c.done.length

def maxHdr : Nat := 64

/-- The first line: up to three fields. -/
def splitFirst (mem : Bytes) : Res (Cur × List (Option Nat)) := do
  let c0 ← skipWhile islws [] mem
  let c ← skipWhile (!islws ·) c0.done c0.rest
  check (iscrlf c.rest = 0)
  let c ← c.cut
  let c1 ← skipWhile issp c.done c.rest
  check (iscrlf c1.rest = 0)
  let c ← skipWhile (!islws ·) c1.done c1.rest
  if iscrlf c.rest ≠ 0 then do
    let c ← c.cutLine
    return (c, [c0.at, c1.at, none])
  else do
    let c ← c.cut
    let c2 ← skipWhile issp c.done c.rest
    let c ← skipLine false c2.done c2.rest
    let c ← c.cutLine
    return (c, [c0.at, c1.at, c2.at])

/-- The header lines. The fuel is that of the bytes in front of the end of the buffer. -/
def splitLines : Nat → Cur → List (Option Nat) → Res (Cur × List (Option Nat))
  | 0, _, _ => .error .fuel
  | fuel + 1, c, hh =>
    match c.rest with
    | [] => .error .ub
    | b :: r =>
      if b = 0 then .ok (c, hh)
      else do
        check (hh.length < maxHdr)
        if iscrlf c.rest ≠ 0 then return (c, hh)
        else do
          let hh := hh ++ [c.at]
          let c ← skipLine true (c.done ++ [b]) r
          if c.rest.head? = some 0 then return (c, hh)
          else do
            let c ← c.cutLine
            splitLines fuel c hh

/-- The buffer, and the pointers into it. The first NULL pointer ends the list. -/
def httpSplitheader (mem : Bytes) : Res (Bytes × List (Option Nat)) :=
  if mem.head? = some 0 then .ok (mem, [])
  else do
    let (c, hh) ← splitFirst mem
    let (c, hh) ← splitLines (c.rest.length + 1) c hh
    check ((c.rest.drop (iscrlf c.rest)).head? = some 0)
    return (c.done ++ c.rest, hh)

/-! ## Header fields -/

/-- The strings behind `hh[3]`, `hh[4]`, ... up to the NULL pointer. -/
def Http.lines (hp : Http) : List Bytes :=
  ((hp.resp.drop 3).takeWhile Option.isSome).filterMap fun p => p.map (cstr hp.mem)

/-- `!strncasecmp(hdr, s, l) && s[l] == ':'`. -/
def headerIs (hdr s : Bytes) : Bool := startsCI hdr s && s[hdr.length]? = some 58

def httpFindHeader (hh : List Bytes) (hdr : Bytes) : Option Bytes :=
  (hh.find? (headerIs hdr)).map fun s => (s.drop (hdr.length + 1)).dropWhile issp

def httpCountHeader (hh : List Bytes) (hdr : Bytes) : Nat := hh.countP (headerIs hdr)

/-! ## The body -/

/-- `%d`. -/
def decimalInt (i : Int) : Bytes := if i < 0 then 45 :: decimal i.natAbs else decimal i.toNat

/-- The size line of a chunk. -/
def rxchunkLine : Nat → Http → Res (Int × Http)
  | 0, _ => .error .fuel
  | fuel + 1, hp => do
    let (i, hp) ← httpRxchar hp 1 false
    if i < 0 then return (i, hp)
    else if hp.mem.getD (hp.rxp - 1) 0 = 10 then return (i, hp)
    else rxchunkLine fuel hp

/-- The data of a chunk and the line end behind it, from `old` on. -/
def rxchunkData (hp : Http) (old : Nat) (len : Int) : Res (Int × Http) := do
  let (i, hp) ← httpRxchar { hp with rxp := old } len false
  if i < 0 then return (-1, hp)
  else do
    let old := hp.rxp
    let (i, hp) ← httpRxchar hp 2 false
    if i < 0 then return (-1, hp)
    else if iscrlf (hp.mem.drop old) = 0 then hp.failed
    else return (len, { hp with rxp := old, mem := hp.mem.set old 0 })

def httpRxchunk (hp : Http) : Res (Int × Http) := do
  let old := hp.rxp
  let (i, hp) ← rxchunkLine (hp.stream.length + 1) hp
  if i < 0 then return (-1, hp)
  else
    let line := cstr hp.mem old
    let (v, q) := strtoul 16 line
    let len := toInt32 v
    let hp := { hp with chunklen := decimalInt len }
    if q.length = line.length ∨ old + (line.length - q.length) = hp.rxp ∨
        q.head?.any (!islws ·) then hp.failed
    else rxchunkData hp old len

/-- `while (http_rxchunk(hp) > 0)` in `http_swallow_body`, with `ll`. -/
def swallowChunks (body l max : Int) : Nat → Http → Int → Res (Int × Http)
  | 0, _, _ => .error .fuel
  | fuel + 1, hp, ll => do
    let (i, hp) ← httpRxchunk hp
    if i ≤ 0 then return (ll, hp)
    else
      let ll := (hp.rxp - body) - l
      if max ≠ 0 ∧ max ≤ ll then return (ll, hp) else swallowChunks body l max fuel hp ll

/-- The body that ends with the connection: `none` if a `read` failed. -/
def swallowEof (max : Int) : Nat → Http → Int → Res (Option Int × Http)
  | 0, _, _ => .error .fuel
  | fuel + 1, hp, ll => do
    let (i, hp) ← httpRxchar hp 1 true
    if i < 0 then return (none, hp)
    else
      let ll := ll + i
      if (max ≠ 0 ∧ max ≤ ll) ∨ i ≤ 0 then return (some ll, hp) else swallowEof max fuel hp ll

/-- `hp->bodyl = l; bprintf(hp->bodylen, "%d", l);` -/
def Http.setBodylen (hp : Http) (l : Int) : Http := { hp with bodyl := l, bodylen := decimalInt l }

def httpSwallowBody (hp : Http) (hasBody : Bool) (max : Int) : Res Http :=
  match hp.body with
  | none => .error .ub
  | some body =>
    let l : Int := hp.rxp - body
    let te := httpFindHeader hp.lines (ascii "transfer-encoding")
    let cl := httpFindHeader hp.lines (ascii "content-length")
    if te.any (fun p => p.map lower = ascii "chunked") then
      if cl.isSome then if hp.fatal then .error .fatal else .ok hp
      else do
        let (ll, hp) ← swallowChunks body l max (hp.stream.length + 1) hp 0
        return hp.setBodylen (l + ll)
    else
      match cl with
      | some q => do
        let v := toInt32 (strtoul 10 q).1
        let ll := if max ≠ 0 ∧ l + max < v then max else v - l
        let (i, hp) ← httpRxchar hp ll false
        if i < 0 then return hp else return hp.setBodylen (l + ll)
      | none =>
        if hasBody then do
          let (ll, hp) ← swallowEof max (hp.stream.length + 1) hp 0
          match ll with
          | none => return hp
          | some ll => return hp.setBodylen (l + ll)
        else .ok (hp.setBodylen 0)

/-- The field `hh[i]`. -/
def Http.field (hp : Http) (i : Nat) : Option Bytes := (hp.resp.getD i none).map (cstr hp.mem)

/-- `rxresp`, with `-no_obj` if `hasObj` is off. -/
def cmdHttpRxresp (hp : Http) (hasObj : Bool) : Res Http := do
  let hp ← httpRxhdr hp
  let (mem, hh) ← httpSplitheader hp.mem
  let hp := { hp with mem := mem, resp := hh }
  fatalIf (1 < httpCountHeader hp.lines (ascii "Content-Length"))
  if !hasObj || (hp.field 0).isNone || (hp.field 1).isNone || hp.headMethod then return hp
  else httpSwallowBody hp (hp.field 1 = some (ascii "200")) 0

end Http1
end VTest
