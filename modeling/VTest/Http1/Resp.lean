import VTest.Http1.Tx

/-!
# VTest.Http1.Resp

What a `txresp` command asks for. A `RespCmd` is the command's options in the order the source
takes them; `RespCmd.av` is its argument strings and `RespCmd.resp` the response it denotes.

* `cmdHttpTxresp_inv`: the command writes the bytes of that response.
-/

namespace VTest
namespace Http1

/-! ## Responses -/

structure Resp where
  proto : Bytes
  status : Bytes
  reason : Bytes
  lines : List Bytes
  body : Bytes

/-- Lines, each with its line end. -/
def linesText (ls : List Bytes) : Bytes := ls.flatMap (· ++ nl)

@[simp] theorem linesText_nil : linesText [] = [] := rfl

@[simp] theorem linesText_cons (l : Bytes) (ls : List Bytes) :
    linesText (l :: ls) = l ++ nl ++ linesText ls := rfl

theorem linesText_append (ls ls' : List Bytes) :
    linesText (ls ++ ls') = linesText ls ++ linesText ls' := by
  simp [linesText]

def Resp.firstLine (r : Resp) : Bytes := r.proto ++ [32] ++ r.status ++ [32] ++ r.reason

def Resp.head (r : Resp) : Bytes := r.firstLine ++ nl ++ linesText r.lines ++ nl

def Resp.bytes (r : Resp) : Bytes := r.head ++ r.body

/-! ## Options -/

inductive LineOpt where
  | proto (v : Bytes)
  | status (v : Bytes)
  | reason (v : Bytes)
  | noserver
  deriving DecidableEq, Repr

def LineOpt.av : LineOpt → List Bytes
  | .proto v => [ascii "-proto", v]
  | .status v => [ascii "-status", v]
  | .reason v => [ascii "-reason", v]
  | .noserver => [ascii "-noserver"]

def LineOpt.apply (l : RespLine) : LineOpt → RespLine
  | .proto v => { l with proto := v }
  | .status v => { l with status := v }
  | .reason v => { l with reason := v }
  | .noserver => { l with noserver := true }

inductive HdrOpt where
  | nolen
  | nohost
  | nodate
  | hdr (s : Bytes)
  | hdrlen (s n : Bytes)
  deriving DecidableEq, Repr

def HdrOpt.av : HdrOpt → List Bytes
  | .nolen => [ascii "-nolen"]
  | .nohost => [ascii "-nohost"]
  | .nodate => [ascii "-nodate"]
  | .hdr s => [ascii "-hdr", s]
  | .hdrlen s n => [ascii "-hdrlen", s, n]

def HdrOpt.apply (t : Tx) : HdrOpt → Tx
  | .nolen => { t with nolen := true }
  | .nohost => { t with nohost := true }
  | .nodate => { t with nodate := true }
  | .hdr s => t.hdr s
  | .hdrlen s n => t.cat (hdrlenLine s n ++ nl)

/-- The header line an option adds. -/
def HdrOpt.line? : HdrOpt → Option Bytes
  | .hdr s => some s
  | .hdrlen s n => some (hdrlenLine s n)
  | _ => none

/-- The option is `-hdr` with a header of that name. -/
def HdrOpt.names (name : Bytes) : HdrOpt → Bool
  | .hdr s => startsCI name s
  | _ => false

inductive BodyOpt where
  | body (s : Bytes)
  | bodyfrom (f : Bytes)
  | bodylen (n : Bytes)
  | gzipresidual (v : Bytes)
  | gziplevel (v : Bytes)
  | gzipbody (s : Bytes)
  | gziplen (n : Bytes)
  deriving DecidableEq, Repr

def BodyOpt.av : BodyOpt → List Bytes
  | .body s => [ascii "-body", s]
  | .bodyfrom f => [ascii "-bodyfrom", f]
  | .bodylen n => [ascii "-bodylen", n]
  | .gzipresidual v => [ascii "-gzipresidual", v]
  | .gziplevel v => [ascii "-gziplevel", v]
  | .gzipbody s => [ascii "-gzipbody", s]
  | .gziplen n => [ascii "-gziplen", n]

def BodyOpt.apply (sess : Sess) (t : Tx) : BodyOpt → Res Tx
  | .body s => t.optBody sess s
  | .bodyfrom f => t.optBodyfrom sess f
  | .bodylen n => t.optBodylen sess n
  | .gzipresidual v => .ok { t with gzipresidual := toInt32 (strtoul 0 v).1 }
  | .gziplevel v => .ok { t with gziplevel := toInt32 (strtoul 0 v).1 }
  | .gzipbody s => do
    let t ← t.gzip sess (.text s)
    return t.cat (gzipLine ++ nl)
  | .gziplen n => do
    let i ← synthLen n
    let t ← t.gzip sess (.random i)
    return t.cat (gzipLine ++ nl)

def BodyOpt.line? : BodyOpt → Option Bytes
  | .gzipbody _ => some gzipLine
  | .gziplen _ => some gzipLine
  | _ => none

/-! ## Commands -/

structure RespCmd where
  line : List LineOpt := []
  hdrs : List HdrOpt := []
  bodies : List BodyOpt := []

namespace RespCmd

def av (cmd : RespCmd) : List Bytes :=
  cmd.line.flatMap LineOpt.av ++ (cmd.hdrs.flatMap HdrOpt.av ++ cmd.bodies.flatMap BodyOpt.av)

/-- The first line. -/
def respLine (cmd : RespCmd) : RespLine := cmd.line.foldl LineOpt.apply {}

def nodate (cmd : RespCmd) : Bool :=
  cmd.hdrs.any fun o => o = .nodate || o.names (ascii "Date:")

def noserver (cmd : RespCmd) : Bool :=
  cmd.respLine.noserver || cmd.hdrs.any (HdrOpt.names (ascii "Server:"))

/-- The header lines of a response with a body of `len` bytes: those of the options, and the
automatic ones. -/
def lines (sess : Sess) (cmd : RespCmd) (len : Nat) : List Bytes :=
  cmd.hdrs.filterMap HdrOpt.line? ++ cmd.bodies.filterMap BodyOpt.line? ++
  (if cmd.nodate then [] else [ascii "Date: " ++ sess.date]) ++
  (if cmd.noserver then [] else [ascii "Server: " ++ sess.name]) ++
  [ascii "Content-Length: " ++ decimal len]

/-- Behind the first line. -/
def start (cmd : RespCmd) (hp : TxHttp) : Tx :=
  { vsb := cmd.respLine.proto ++ [32] ++ cmd.respLine.status ++ [32] ++ cmd.respLine.reason ++ nl
    body := some []
    nohost := true
    nodate := false
    noserver := cmd.respLine.noserver
    nouseragent := true
    gziplevel := hp.gziplevel
    gzipresidual := hp.gzipresidual }

/-- Behind all options. -/
def tx (sess : Sess) (hp : TxHttp) (cmd : RespCmd) : Res Tx :=
  cmd.bodies.foldlM (BodyOpt.apply sess) (cmd.hdrs.foldl HdrOpt.apply (cmd.start hp))

def resp (sess : Sess) (hp : TxHttp) (cmd : RespCmd) : Res Resp := do
  let t ← cmd.tx sess hp
  let body := t.body.getD []
  return { proto := cmd.respLine.proto
           status := cmd.respLine.status
           reason := cmd.respLine.reason
           lines := cmd.lines sess body.length
           body := body }

end RespCmd

/-! ## The loops of the command -/

theorem respArgs_line :
    ∀ (opts : List LineOpt) (l : RespLine) (av : List Bytes),
      respArgs (opts.flatMap LineOpt.av ++ av) l = respArgs av (opts.foldl LineOpt.apply l) := by
  intro opts
  induction opts with
  | nil => intro l av; rfl
  | cons o opts ih =>
    intro l av
    rw [List.flatMap_cons, List.append_assoc, List.foldl_cons, ← ih]
    cases o with
    | proto v => rfl
    | status v => rfl
    | reason v => rfl
    | noserver =>
      cases hr : opts.flatMap LineOpt.av ++ av with
      | nil => rfl
      | cons a r => rfl

/-- The options of the first line. -/
def lineNames : List Bytes := [ascii "-proto", ascii "-status", ascii "-reason", ascii "-noserver"]

theorem respArgs_stop {a : Bytes} (h : a ∉ lineNames) (av : List Bytes) (l : RespLine) :
    respArgs (a :: av) l = .ok (l, a :: av) := by
  simp only [lineNames, List.mem_cons, List.not_mem_nil, or_false, not_or] at h
  obtain ⟨h1, h2, h3, h4⟩ := h
  cases av with
  | nil => simp [respArgs, h1, h2, h3, h4]
  | cons v av => simp [respArgs, h1, h2, h3, h4]

/-- The options of `http_tx_parse_args`. -/
def hdrNames : List Bytes :=
  [ascii "-nolen", ascii "-nohost", ascii "-nodate", ascii "-hdr", ascii "-hdrlen"]

def bodyNames : List Bytes :=
  [ascii "-body", ascii "-bodyfrom", ascii "-bodylen", ascii "-gzipresidual", ascii "-gziplevel",
    ascii "-gzipbody", ascii "-gziplen"]

theorem HdrOpt.av_eq (o : HdrOpt) : ∃ a r, o.av = a :: r ∧ a ∈ hdrNames := by
  cases o <;> exact ⟨_, _, rfl, by decide⟩

theorem BodyOpt.av_eq (o : BodyOpt) : ∃ a r, o.av = a :: r ∧ a ∈ bodyNames := by
  cases o <;> exact ⟨_, _, rfl, by decide⟩

/-- What is left for `http_tx_parse_args` starts with one of its options. -/
theorem opts_cases (hdrs : List HdrOpt) (bodies : List BodyOpt) :
    hdrs.flatMap HdrOpt.av ++ bodies.flatMap BodyOpt.av = [] ∨
      ∃ a r, hdrs.flatMap HdrOpt.av ++ bodies.flatMap BodyOpt.av = a :: r ∧
        a ∈ hdrNames ++ bodyNames := by
  cases hdrs with
  | cons o hdrs =>
    obtain ⟨a, r, hav, ha⟩ := o.av_eq
    rw [List.flatMap_cons, hav]
    exact .inr ⟨a, _, rfl, List.mem_append_left _ ha⟩
  | nil =>
    cases bodies with
    | nil => exact .inl rfl
    | cons o bodies =>
      obtain ⟨a, r, hav, ha⟩ := o.av_eq
      rw [List.flatMap_cons, hav]
      exact .inr ⟨a, _, rfl, List.mem_append_right _ ha⟩

theorem respArgs_rest (hdrs : List HdrOpt) (bodies : List BodyOpt) (l : RespLine) :
    respArgs (hdrs.flatMap HdrOpt.av ++ bodies.flatMap BodyOpt.av) l =
      .ok (l, hdrs.flatMap HdrOpt.av ++ bodies.flatMap BodyOpt.av) := by
  have hnames : ∀ a ∈ hdrNames ++ bodyNames, a ∉ lineNames := by decide
  rcases opts_cases hdrs bodies with hnil | ⟨a, r, hav, ha⟩
  · rw [hnil]
    rfl
  · rw [hav]
    exact respArgs_stop (hnames a ha) r l

theorem hdrArgs_opts :
    ∀ (opts : List HdrOpt) (t : Tx) (av : List Bytes),
      hdrArgs (opts.flatMap HdrOpt.av ++ av) t = hdrArgs av (opts.foldl HdrOpt.apply t) := by
  intro opts
  induction opts with
  | nil => intro t av; rfl
  | cons o opts ih =>
    intro t av
    rw [List.flatMap_cons, List.append_assoc, List.foldl_cons, ← ih]
    cases o <;> (rw [hdrArgs.eq_def]; rfl)

theorem hdrArgs_rest (bodies : List BodyOpt) (t : Tx) :
    hdrArgs (bodies.flatMap BodyOpt.av) t = .ok (t, bodies.flatMap BodyOpt.av) := by
  cases bodies with
  | nil => rfl
  | cons o bodies =>
    have hnames : ∀ a ∈ bodyNames, hdrArg? a = none := by decide
    obtain ⟨a, r, hav, ha⟩ := o.av_eq
    rw [List.flatMap_cons, hav, List.cons_append, hdrArgs.eq_def]
    simp only [hnames a ha]

/-- A turn that compresses a body. -/
theorem bodyArgs_gzip {sess : Sess} {a v : Bytes} {av : List Bytes} {t : Tx} {x : Res Tx}
    (ha : a ∉ [ascii "-body", ascii "-bodyfrom", ascii "-bodylen"]) (hg : a.take 5 = ascii "-gzip")
    (hx : vtcGzipCmd sess t a v = x >>= fun t => .ok (2, t)) :
    bodyArgs sess (a :: v :: av) t =
      (x >>= fun t => .ok (t.cat (gzipLine ++ nl))) >>= bodyArgs sess av := by
  simp only [List.mem_cons, List.not_mem_nil, or_false, not_or] at ha
  obtain ⟨h1, h2, h3⟩ := ha
  rw [bodyArgs, if_neg h1, if_neg h2, if_neg h3, if_pos hg, hx]
  cases x with
  | error e => rfl
  | ok t' => rfl

theorem bodyArgs_opts (sess : Sess) :
    ∀ (opts : List BodyOpt) (t : Tx),
      bodyArgs sess (opts.flatMap BodyOpt.av) t =
        (opts.foldlM (BodyOpt.apply sess) t).map (·, []) := by
  intro opts
  induction opts with
  | nil => intro t; rfl
  | cons o opts ih =>
    intro t
    -- one option is one turn of the loop
    have hstep : bodyArgs sess (o.av ++ opts.flatMap BodyOpt.av) t =
        o.apply sess t >>= bodyArgs sess (opts.flatMap BodyOpt.av) := by
      cases o with
      | body s => rfl
      | bodyfrom f => rfl
      | bodylen n => rfl
      | gzipresidual v => rfl
      | gziplevel v => rfl
      | gzipbody s => exact bodyArgs_gzip (a := ascii "-gzipbody") (by decide) (by decide) rfl
      | gziplen n =>
        refine (bodyArgs_gzip (a := ascii "-gziplen")
          (x := synthLen n >>= fun i => t.gzip sess (.random i)) (by decide) (by decide)
          (bind_assoc _ _ _).symm).trans ?_
        exact congrArg (· >>= bodyArgs sess _) (bind_assoc (synthLen n) _ _)
    rw [List.flatMap_cons, hstep, List.foldlM_cons]
    cases o.apply sess t with
    | error e => rfl
    | ok t' => exact ih t'

theorem httpTxParseArgs_opts (sess : Sess) (hdrs : List HdrOpt) (bodies : List BodyOpt) (t : Tx) :
    httpTxParseArgs sess (hdrs.flatMap HdrOpt.av ++ bodies.flatMap BodyOpt.av) t =
      (bodies.foldlM (BodyOpt.apply sess) (hdrs.foldl HdrOpt.apply t)).map fun t =>
        ({ t with vsb := t.finish sess }, []) := by
  simp only [httpTxParseArgs, hdrArgs_opts, hdrArgs_rest, ok_bind, bodyArgs_opts]
  cases bodies.foldlM (BodyOpt.apply sess) _ with
  | error e => rfl
  | ok t => rfl

/-! ## The message -/

/-- A flag that is set by some of the options. -/
theorem foldl_flag {f : Tx → Bool} {g : HdrOpt → Bool}
    (h : ∀ t o, f (HdrOpt.apply t o) = (f t || g o)) :
    ∀ (opts : List HdrOpt) (t : Tx), f (opts.foldl HdrOpt.apply t) = (f t || opts.any g) := by
  intro opts
  induction opts with
  | nil => intro t; simp
  | cons o opts ih => intro t; rw [List.foldl_cons, ih, h, List.any_cons, Bool.or_assoc]

theorem nodate_hdrs (opts : List HdrOpt) (t : Tx) :
    (opts.foldl HdrOpt.apply t).nodate =
      (t.nodate || opts.any fun o => o = .nodate || o.names (ascii "Date:")) := by
  refine foldl_flag ?_ opts t
  intro t o
  cases o <;> simp [HdrOpt.apply, Tx.hdr, Tx.cat, HdrOpt.names]

theorem noserver_hdrs (opts : List HdrOpt) (t : Tx) :
    (opts.foldl HdrOpt.apply t).noserver =
      (t.noserver || opts.any (HdrOpt.names (ascii "Server:"))) := by
  refine foldl_flag ?_ opts t
  intro t o
  cases o <;> simp [HdrOpt.apply, Tx.hdr, Tx.cat, HdrOpt.names]

/-- The option leaves out `Content-Length`. -/
def HdrOpt.nolen? (o : HdrOpt) : Bool :=
  o = .nolen || o.names (ascii "Content-Length:") || o.names (ascii "Transfer-Encoding:")

theorem nolen_hdrs (opts : List HdrOpt) (t : Tx) :
    (opts.foldl HdrOpt.apply t).nolen = (t.nolen || opts.any HdrOpt.nolen?) := by
  refine foldl_flag ?_ opts t
  intro t o
  cases o <;> simp [HdrOpt.apply, Tx.hdr, Tx.cat, HdrOpt.nolen?, HdrOpt.names, Bool.or_assoc]

/-- What the options leave as it is. -/
structure Tx.Same (t t' : Tx) : Prop where
  nohost : t.nohost = true → t'.nohost = true
  nouseragent : t.nouseragent = true → t'.nouseragent = true
  body : t.body.isSome = true → t'.body.isSome = true

theorem HdrOpt.apply_same (t : Tx) (o : HdrOpt) : t.Same (o.apply t) := by
  cases o <;> constructor <;> simp +contextual [HdrOpt.apply, Tx.hdr, Tx.cat]

theorem hdrs_same : ∀ (opts : List HdrOpt) (t : Tx), t.Same (opts.foldl HdrOpt.apply t) := by
  intro opts
  induction opts with
  | nil => intro t; exact ⟨id, id, id⟩
  | cons o opts ih =>
    intro t
    have h := o.apply_same t
    have h' := ih (o.apply t)
    exact ⟨h'.nohost ∘ h.nohost, h'.nouseragent ∘ h.nouseragent, h'.body ∘ h.body⟩

theorem vsb_hdrs :
    ∀ (opts : List HdrOpt) (t : Tx),
      (opts.foldl HdrOpt.apply t).vsb = t.vsb ++ linesText (opts.filterMap HdrOpt.line?) := by
  intro opts
  induction opts with
  | nil => intro t; simp
  | cons o opts ih =>
    intro t
    rw [List.foldl_cons, ih]
    cases o <;> simp [HdrOpt.apply, List.filterMap_cons, HdrOpt.line?, Tx.hdr, Tx.cat]

/-- A body option adds its line and sets a body, and keeps the flags. -/
structure Tx.Adds (t t' : Tx) (ls : List Bytes) : Prop where
  vsb : t'.vsb = t.vsb ++ linesText ls
  nolen : t'.nolen = t.nolen
  nohost : t'.nohost = t.nohost
  nodate : t'.nodate = t.nodate
  noserver : t'.noserver = t.noserver
  nouseragent : t'.nouseragent = t.nouseragent
  body : t.body.isSome = true → t'.body.isSome = true

theorem Tx.adds_setBody (sess : Sess) (t : Tx) (b : Bytes) : t.Adds (t.setBody sess b) [] := by
  constructor <;> simp [Tx.setBody]

theorem Tx.adds_gzip {sess : Sess} {t t' : Tx} {i : GzipInput} (h : t.gzip sess i = .ok t') :
    t.Adds (t'.cat (gzipLine ++ nl)) [gzipLine] := by
  obtain ⟨b, _, hb⟩ := bind_eq_ok.mp h
  cases hb
  constructor <;> simp [Tx.setBody, Tx.cat]

theorem BodyOpt.apply_adds {sess : Sess} {t t' : Tx} {o : BodyOpt} (h : o.apply sess t = .ok t') :
    t.Adds t' o.line?.toList := by
  cases o with
  | body s =>
    obtain ⟨_, hb⟩ := check_bind_eq_ok.mp h
    cases hb
    exact t.adds_setBody sess _
  | bodyfrom f =>
    obtain ⟨_, hb⟩ := check_bind_eq_ok.mp h
    split at hb
    · cases hb
    · obtain ⟨_, hb⟩ := check_bind_eq_ok.mp hb
      cases hb
      exact t.adds_setBody sess _
  | bodylen n =>
    obtain ⟨_, hb⟩ := check_bind_eq_ok.mp h
    obtain ⟨b, _, hb⟩ := bind_eq_ok.mp hb
    cases hb
    exact t.adds_setBody sess _
  | gzipresidual v =>
    cases h
    constructor <;> simp [BodyOpt.line?]
  | gziplevel v =>
    cases h
    constructor <;> simp [BodyOpt.line?]
  | gzipbody s =>
    obtain ⟨t1, h1, hb⟩ := bind_eq_ok.mp h
    cases hb
    exact Tx.adds_gzip h1
  | gziplen n =>
    obtain ⟨i, _, h⟩ := bind_eq_ok.mp h
    obtain ⟨t1, h1, hb⟩ := bind_eq_ok.mp h
    cases hb
    exact Tx.adds_gzip h1

theorem Tx.Adds.trans {t t1 t2 : Tx} {ls ls' : List Bytes} (h : t.Adds t1 ls)
    (h' : t1.Adds t2 ls') : t.Adds t2 (ls ++ ls') where
  vsb := by rw [h'.vsb, h.vsb, linesText_append, List.append_assoc]
  nolen := h'.nolen.trans h.nolen
  nohost := h'.nohost.trans h.nohost
  nodate := h'.nodate.trans h.nodate
  noserver := h'.noserver.trans h.noserver
  nouseragent := h'.nouseragent.trans h.nouseragent
  body := h'.body ∘ h.body

theorem bodies_adds {sess : Sess} :
    ∀ (opts : List BodyOpt) (t t' : Tx), opts.foldlM (BodyOpt.apply sess) t = .ok t' →
      t.Adds t' (opts.filterMap BodyOpt.line?) := by
  intro opts
  induction opts with
  | nil =>
    intro t t' h
    cases h
    constructor <;> simp
  | cons o opts ih =>
    intro t t' h
    rw [List.foldlM_cons] at h
    obtain ⟨t1, h1, h2⟩ := bind_eq_ok.mp h
    have hadd := (BodyOpt.apply_adds h1).trans (ih t1 t' h2)
    rw [List.filterMap_cons]
    cases hl : o.line? with
    | none => simpa [hl] using hadd
    | some l => simpa [hl] using hadd

/-- The command writes the response it denotes. -/
theorem cmdHttpTxresp_inv {sess : Sess} {hp hp' : TxHttp} {cmd : RespCmd}
    (hlen : cmd.hdrs.any HdrOpt.nolen? = false) (h : cmdHttpTxresp sess hp cmd.av = .ok hp') :
    ∃ r, cmd.resp sess hp = .ok r ∧ hp'.vsb = r.bytes := by
  have hargs : cmdHttpTxresp sess hp cmd.av = (do
      let t ← cmd.tx sess hp
      return {
        vsb := t.finish sess, gziplevel := t.gziplevel, gzipresidual := t.gzipresidual }) := by
    rw [cmdHttpTxresp, RespCmd.av, respArgs_line, respArgs_rest, ok_bind]
    simp only [httpTxParseArgs_opts]
    rw [RespCmd.tx, RespCmd.start, RespCmd.respLine]
    cases cmd.bodies.foldlM (BodyOpt.apply sess) _ with
    | error e => rfl
    | ok t => rfl
  rw [hargs] at h
  obtain ⟨t, ht, h⟩ := bind_eq_ok.mp h
  cases h
  rw [RespCmd.resp, ht, ok_bind]
  refine ⟨_, rfl, ?_⟩
  have hadd := bodies_adds _ _ _ ht
  have hsame := hdrs_same cmd.hdrs (cmd.start hp)
  obtain ⟨b, hb⟩ := Option.isSome_iff_exists.mp (hadd.body (hsame.body rfl))
  have hhost : t.nohost = true := by rw [hadd.nohost, hsame.nohost rfl]
  have hagent : t.nouseragent = true := by rw [hadd.nouseragent, hsame.nouseragent rfl]
  have hnolen : t.nolen = false := by rw [hadd.nolen, nolen_hdrs, hlen]; rfl
  have hdate : t.nodate = cmd.nodate := by rw [hadd.nodate, nodate_hdrs]; rfl
  have hserver : t.noserver = cmd.noserver := by rw [hadd.noserver, noserver_hdrs]; rfl
  have hvsb := hadd.vsb
  rw [vsb_hdrs] at hvsb
  simp only [Tx.finish, hhost, hagent, hnolen, hdate, hserver, hb, hvsb, Resp.bytes, Resp.head,
    Resp.firstLine, RespCmd.lines, linesText_append]
  cases cmd.nodate <;> cases cmd.noserver <;> simp [RespCmd.start]

end Http1
end VTest
