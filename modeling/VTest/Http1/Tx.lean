import VTest.Lib.Text

/-!
# VTest.Http1.Tx

How `vtc_http.c` sends an HTTP/1 message: `cmd_http_txresp`, `cmd_http_txreq` and
`http_tx_parse_args`, on the argument strings of the command.

What the command takes from elsewhere (the name of the session, macros, files, the compressor) is a
`Sess`. The message is left in the buffer `vsb`, which `http_write` writes to the connection.
-/

namespace VTest
namespace Http1

def nl : Bytes := [13, 10]

/-- What is compressed: a string, or a synthetic body of random characters. -/
inductive GzipInput where
  | text (s : Bytes)
  | random (len : Nat)
  deriving DecidableEq, Repr

/-- `gzip level residual input` is `vtc_gzip`; `reused b` says whether `malloc` gives the body `b`
the address of the first one, which is free by then. -/
structure Sess where
  name : Bytes
  localhost : Bytes
  date : Bytes
  readfile : Bytes → Option Bytes
  gzip : Int → Int → GzipInput → Res Bytes
  reused : Bytes → Bool

/-! ## Bodies -/

/-- The loop of `synth_body` without `rnd`, from `j` on for `n` bytes. -/
def synthGo : Nat → Nat → UInt8 → UInt8 → Bytes
  | 0, _, _, _ => []
  | n + 1, j, k, l =>
    if j % 64 = 63 then
      let k := if k + 1 = 126 then 33 else k + 1
      10 :: synthGo n (j + 1) k k
    else l :: synthGo n (j + 1) k (if l + 1 = 126 then 33 else l + 1)

/-- `i` in `synth_body`. -/
def synthLen (len : Bytes) : Res Nat := do
  let i := toInt32 (strtoul 0 len).1
  check (0 < i)
  return i.toNat

def synthBody (len : Bytes) : Res Bytes := do
  let i ← synthLen len
  return (synthGo i 0 33 33).set (i - 1) 10

/-- `\0` in the argument of `-body` becomes a NUL. The scan goes on behind the character that takes
the place of the `0`. -/
def unescape : Bytes → Bytes
  | 92 :: 48 :: c :: r => 0 :: c :: unescape r
  | [92, 48] => [0]
  | c :: r => c :: unescape r
  | [] => []

/-! ## Arguments -/

/-- The variables of `http_tx_parse_args`, and the fields of `struct http` it uses. `body` has
`bodylen` bytes; `isNull` is `body == nullbody`. -/
structure Tx where
  vsb : Bytes
  body : Option Bytes
  isNull : Bool := true
  nolen : Bool := false
  nohost : Bool
  nodate : Bool
  noserver : Bool
  nouseragent : Bool
  gziplevel : Int
  gzipresidual : Int

def Tx.cat (t : Tx) (s : Bytes) : Tx := { t with vsb := t.vsb ++ s }

/-- `-hdr s`. -/
def Tx.hdr (t : Tx) (s : Bytes) : Tx :=
  { t with
    nolen := t.nolen || startsCI (ascii "Content-Length:") s ||
      startsCI (ascii "Transfer-Encoding:") s
    nohost := t.nohost || startsCI (ascii "Host:") s
    nodate := t.nodate || startsCI (ascii "Date:") s
    noserver := t.noserver || startsCI (ascii "Server:") s
    nouseragent := t.nouseragent || startsCI (ascii "User-Agent:") s
    vsb := t.vsb ++ (s ++ nl) }

/-- `while (l-- > 0) VSB_putc(hp->vsb, '0' + (l % 10));` -/
def hdrlenText : Nat → Bytes
  | 0 => []
  | l + 1 => digit (l % 10) :: hdrlenText l

/-- The line of `-hdrlen s n`. -/
def hdrlenLine (s n : Bytes) : Bytes := s ++ ascii ": " ++ hdrlenText (atoi n).toNat

/-- The options of the first loop of `http_tx_parse_args`. -/
inductive HdrArg where
  | nolen
  | nohost
  | nodate
  | hdr
  | hdrlen
  deriving DecidableEq, Repr

def hdrArg? (a : Bytes) : Option HdrArg :=
  if a = ascii "-nolen" then some .nolen
  else if a = ascii "-nohost" then some .nohost
  else if a = ascii "-nodate" then some .nodate
  else if a = ascii "-hdr" then some .hdr
  else if a = ascii "-hdrlen" then some .hdrlen
  else none

/-- The first loop of `http_tx_parse_args`. -/
def hdrArgs : List Bytes → Tx → Res (Tx × List Bytes)
  | [], t => .ok (t, [])
  | a :: av, t =>
    match hdrArg? a, av with
    | some .nolen, av => hdrArgs av { t with nolen := true }
    | some .nohost, av => hdrArgs av { t with nohost := true }
    | some .nodate, av => hdrArgs av { t with nodate := true }
    | some .hdr, s :: av => hdrArgs av (t.hdr s)
    | some .hdrlen, s :: n :: av => hdrArgs av (t.cat (hdrlenLine s n ++ nl))
    | none, av => .ok (t, a :: av)
    | _, _ => .error .ub

def Tx.setBody (sess : Sess) (t : Tx) (b : Bytes) : Tx :=
  { t with body := some b, isNull := sess.reused b }

/-- `-body s`. -/
def Tx.optBody (sess : Sess) (t : Tx) (s : Bytes) : Res Tx := do
  check t.isNull
  return t.setBody sess (unescape s)

/-- `-bodyfrom f`. -/
def Tx.optBodyfrom (sess : Sess) (t : Tx) (f : Bytes) : Res Tx := do
  check t.isNull
  match sess.readfile f with
  | none => .error .assert
  | some b => do
    check (b.length < 2 ^ 31 - 1)
    return t.setBody sess b

/-- `-bodylen n`. -/
def Tx.optBodylen (sess : Sess) (t : Tx) (n : Bytes) : Res Tx := do
  check t.isNull
  let b ← synthBody n
  return t.setBody sess (cstr b 0)

def gzipLine : Bytes := ascii "Content-Encoding: gzip"

def Tx.gzip (sess : Sess) (t : Tx) (input : GzipInput) : Res Tx := do
  let b ← sess.gzip t.gziplevel t.gzipresidual input
  return t.setBody sess b

/-- `vtc_gzip_cmd` with the argument `v`: what it returns and what it leaves behind. -/
def vtcGzipCmd (sess : Sess) (t : Tx) (a v : Bytes) : Res (Nat × Tx) :=
  if a = ascii "-gzipresidual" then
    .ok (1, { t with gzipresidual := toInt32 (strtoul 0 v).1 })
  else if a = ascii "-gziplevel" then
    .ok (1, { t with gziplevel := toInt32 (strtoul 0 v).1 })
  else if a = ascii "-gzipbody" then do
    let t ← t.gzip sess (.text v)
    return (2, t)
  else if a = ascii "-gziplen" then do
    let i ← synthLen v
    let t ← t.gzip sess (.random i)
    return (2, t)
  else .ok (0, t)

/-- The second loop of `http_tx_parse_args`. -/
def bodyArgs (sess : Sess) : List Bytes → Tx → Res (Tx × List Bytes)
  | [], t => .ok (t, [])
  | [a], t =>
    if [ascii "-body", ascii "-bodyfrom", ascii "-bodylen", ascii "-gzipresidual",
        ascii "-gziplevel", ascii "-gzipbody", ascii "-gziplen"].contains a then .error .ub
    else .ok (t, [a])
  | a :: v :: av, t =>
    if a = ascii "-body" then do
      let t ← t.optBody sess v
      bodyArgs sess av t
    else if a = ascii "-bodyfrom" then do
      let t ← t.optBodyfrom sess v
      bodyArgs sess av t
    else if a = ascii "-bodylen" then do
      let t ← t.optBodylen sess v
      bodyArgs sess av t
    else if a.take 5 = ascii "-gzip" then do
      let (l, t) ← vtcGzipCmd sess t a v
      if l = 0 then return (t, a :: v :: av)
      else if 1 < l then bodyArgs sess av (t.cat (gzipLine ++ nl))
      else bodyArgs sess av t
    else .ok (t, a :: v :: av)

/-- The automatic lines, the empty line and the body. -/
def Tx.finish (sess : Sess) (t : Tx) : Bytes :=
  t.vsb ++
  (if t.nohost then [] else ascii "Host: " ++ sess.localhost ++ nl) ++
  (if t.nodate then [] else ascii "Date: " ++ sess.date ++ nl) ++
  (if t.noserver then [] else ascii "Server: " ++ sess.name ++ nl) ++
  (if t.nouseragent then [] else ascii "User-Agent: " ++ sess.name ++ nl) ++
  (match t.body with
    | some b => if t.nolen then [] else ascii "Content-Length: " ++ decimal b.length ++ nl
    | none => []) ++
  nl ++ t.body.getD []

def httpTxParseArgs (sess : Sess) (av : List Bytes) (t : Tx) : Res (Tx × List Bytes) := do
  let (t, av) ← hdrArgs av t
  let (t, av) ← bodyArgs sess av t
  return ({ t with vsb := t.finish sess }, av)

/-! ## The command -/

/-- The variables of `cmd_http_txresp`. -/
structure RespLine where
  proto : Bytes := ascii "HTTP/1.1"
  status : Bytes := ascii "200"
  reason : Bytes := ascii "OK"
  noserver : Bool := false

/-- The loop of `cmd_http_txresp`. -/
def respArgs : List Bytes → RespLine → Res (RespLine × List Bytes)
  | [], l => .ok (l, [])
  | [a], l =>
    if a = ascii "-noserver" then .ok ({ l with noserver := true }, [])
    else if [ascii "-proto", ascii "-status", ascii "-reason"].contains a then .error .ub
    else .ok (l, [a])
  | a :: v :: av, l =>
    if a = ascii "-proto" then respArgs av { l with proto := v }
    else if a = ascii "-status" then respArgs av { l with status := v }
    else if a = ascii "-reason" then respArgs av { l with reason := v }
    else if a = ascii "-noserver" then respArgs (v :: av) { l with noserver := true }
    else .ok (l, a :: v :: av)

/-- The sending part of `struct http`. -/
structure TxHttp where
  vsb : Bytes := []
  gziplevel : Int := 0
  gzipresidual : Int := -1

/-- `txresp`. -/
def cmdHttpTxresp (sess : Sess) (hp : TxHttp) (av : List Bytes) : Res TxHttp := do
  let (l, av) ← respArgs av {}
  let (t, av) ← httpTxParseArgs sess av
    { vsb := l.proto ++ [32] ++ l.status ++ [32] ++ l.reason ++ nl
      body := some []
      nohost := true
      nodate := false
      noserver := l.noserver
      nouseragent := true
      gziplevel := hp.gziplevel
      gzipresidual := hp.gzipresidual }
  fatalIf (!av.isEmpty)
  return { vsb := t.vsb, gziplevel := t.gziplevel, gzipresidual := t.gzipresidual }

/-- The variables of `cmd_http_txreq`, and `hp->head_method`. -/
structure ReqLine where
  req : Bytes := ascii "GET"
  url : Bytes := ascii "/"
  proto : Bytes := ascii "HTTP/1.1"
  up : Option Bytes := none
  nouseragent : Bool := false
  headMethod : Bool := false

/-- The loop of `cmd_http_txreq`. Only a client gets there, so `hp->sfd` is not set. -/
def reqArgs : List Bytes → ReqLine → Res (ReqLine × List Bytes)
  | [], l => .ok (l, [])
  | [a], l =>
    if a = ascii "-nouseragent" then .ok ({ l with nouseragent := true }, [])
    else if [ascii "-url", ascii "-proto", ascii "-method", ascii "-req", ascii "-up"].contains a
      then .error .ub
    else .ok (l, [a])
  | a :: v :: av, l =>
    if a = ascii "-url" then reqArgs av { l with url := v }
    else if a = ascii "-proto" then reqArgs av { l with proto := v }
    else if a = ascii "-method" || a = ascii "-req" then
      reqArgs av { l with req := v, headMethod := v = ascii "HEAD" }
    else if a = ascii "-up" then reqArgs av { l with up := some v }
    else if a = ascii "-nouseragent" then reqArgs (v :: av) { l with nouseragent := true }
    else .ok (l, a :: v :: av)

/-- The lines that ask for HTTP/2. -/
def upText (up : Bytes) : Bytes :=
  ascii "Connection: Upgrade, HTTP2-Settings" ++ nl ++ ascii "Upgrade: h2c" ++ nl ++
    ascii "HTTP2-Settings: " ++ up ++ nl

/-- Behind the first lines. There is no body to begin with. -/
def ReqLine.start (l : ReqLine) (hp : TxHttp) : Tx where
  vsb := l.req ++ [32] ++ l.url ++ [32] ++ l.proto ++ nl ++ (l.up.map upText).getD []
  body := none
  nohost := l.proto != ascii "HTTP/1.1"
  nodate := true
  noserver := true
  nouseragent := l.nouseragent
  gziplevel := hp.gziplevel
  gzipresidual := hp.gzipresidual

/-- `txreq`, up to the message it writes; with `-up` a script of further commands follows. A body is
never at the address of the first one, which is NULL. -/
def cmdHttpTxreq (sess : Sess) (hp : TxHttp) (av : List Bytes) : Res (TxHttp × ReqLine) := do
  let (l, av) ← reqArgs av {}
  let (t, av) ← httpTxParseArgs { sess with reused := fun _ => false } av (l.start hp)
  fatalIf (!av.isEmpty)
  return ({ vsb := t.vsb, gziplevel := t.gziplevel, gzipresidual := t.gzipresidual }, l)

end Http1
end VTest
