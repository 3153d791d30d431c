import VTest.Http1.Resp

/-!
# VTest.Http1.NulBody

NUL characters in a body. The loop of `-body` turns `\0` into a NUL within the string; `txresp` and
`txreq` send what it leaves.

* `bodyLoop_spec`: the string and the length the loop leaves.
* `unescape_eq_iff`: the loop misses an escape that follows another one, and nothing else.
-/

namespace VTest
namespace Http1

/-! ## The loop -/

/-- `for (c = b+1; *c != '\0'; c++) *c = c[1];` on what is at `c`. -/
def shiftTail : Bytes → Res Bytes
  | [] => .error .ub
  | [c] => if c = 0 then .ok [c] else .error .ub
  | c :: d :: r =>
    if c = 0 then .ok (c :: d :: r)
    else do
      let r ← shiftTail (d :: r)
      return d :: r

/-- `for (b = body; *b != '\0'; b++)` on what is at `b`, with `bodylen`. A turn that finds an escape
goes on two characters further in the shifted string. -/
def bodyLoop : Nat → Bytes → Int → Res (Bytes × Int)
  | 0, _, _ => .error .fuel
  | _ + 1, [], _ => .error .ub
  | fuel + 1, b :: r, bodylen =>
    if b = 0 then .ok (b :: r, bodylen)
    else if b = 92 && r.head? = some 48 then do
      match ← shiftTail r with
      | [] => .error .ub
      | x :: r => do
        let (r, bodylen) ← bodyLoop fuel r (bodylen - 1)
        return (0 :: x :: r, bodylen)
    else do
      let (r, bodylen) ← bodyLoop fuel r bodylen
      return (b :: r, bodylen)

/-- `-body s`: the memory of the string, and `bodylen`. -/
def bodyString (s : Bytes) : Res (Bytes × Int) :=
  bodyLoop (s.length + 1) (s ++ [0]) s.length

theorem shiftTail_nul (t : Bytes) : shiftTail (0 :: t) = .ok (0 :: t) := by
  cases t <;> rfl

theorem shiftTail_string {a : UInt8} {s : Bytes} (ha : a ≠ 0) (hs : 0 ∉ s) (t : Bytes) :
    shiftTail (a :: (s ++ 0 :: t)) = .ok (s ++ 0 :: 0 :: t) := by
  induction s generalizing a with
  | nil =>
    rw [List.nil_append, shiftTail, if_neg ha, shiftTail_nul]
    rfl
  | cons b s ih =>
    rw [List.mem_cons, not_or] at hs
    rw [List.cons_append, shiftTail, if_neg ha, ih (Ne.symm hs.1) hs.2]
    rfl

theorem bodyLoop_nul (fuel : Nat) (t : Bytes) (k : Int) :
    bodyLoop (fuel + 1) (0 :: t) k = .ok (0 :: t, k) := rfl

/-- A turn without an escape. -/
theorem bodyLoop_char {b : UInt8} {r : Bytes} (hb : b ≠ 0) (hne : ¬(b = 92 ∧ r.head? = some 48))
    (fuel : Nat) (k : Int) :
    bodyLoop (fuel + 1) (b :: r) k =
      bodyLoop fuel r k >>= fun x => .ok (b :: x.1, x.2) := by
  rw [bodyLoop, if_neg hb, if_neg (by simpa using hne)]
  rfl

/-- A turn with an escape, behind which the string `x :: r` is left. -/
theorem bodyLoop_escape {r r' : Bytes} {x : UInt8} (h : shiftTail (48 :: r) = .ok (x :: r'))
    (fuel : Nat) (k : Int) :
    bodyLoop (fuel + 1) (92 :: 48 :: r) k =
      bodyLoop fuel r' (k - 1) >>= fun y => .ok (0 :: x :: y.1, y.2) := by
  rw [bodyLoop, if_neg (by decide), if_pos (by rfl), h]
  rfl

/-- The case of `unescape` that is left is no escape. -/
theorem not_escape {c : UInt8} {r : Bytes} (h3 : ∀ d r', c = 92 → r = 48 :: d :: r' → False)
    (h2 : c = 92 → r = [48] → False) : ¬(c = 92 ∧ r.head? = some 48) := by
  rintro ⟨hc, hr⟩
  obtain ⟨r', rfl⟩ := List.head?_eq_some_iff.mp hr
  cases r' with
  | nil => exact h2 hc rfl
  | cons d r' => exact h3 d r' hc rfl

/-- The loop leaves `unescape s` at the start of the string, and counts its length. Each escape
leaves one more NUL behind it. -/
theorem bodyLoop_spec (s t : Bytes) (k : Int) {fuel : Nat} (hf : s.length < fuel) (hs : 0 ∉ s) :
    ∃ t', bodyLoop fuel (s ++ 0 :: t) (s.length + k) =
      .ok (unescape s ++ 0 :: t', (unescape s).length + k) := by
  induction s using unescape.induct generalizing t k fuel with
  | case1 c r ih =>
    obtain ⟨fuel, rfl⟩ : ∃ n, fuel = n + 1 := ⟨fuel - 1, by omega⟩
    simp only [List.mem_cons, not_or] at hs
    simp only [List.length_cons] at hf
    -- `c` takes the place of the `0`, and is not looked at
    obtain ⟨t', hrun⟩ := ih (0 :: t) (k + 2) (by omega : r.length < fuel) hs.2.2.2
    have hc : 0 ∉ c :: r := by simp [hs.2.2]
    have hshift : shiftTail (48 :: (c :: r ++ 0 :: t)) = .ok (c :: (r ++ 0 :: 0 :: t)) :=
      shiftTail_string (by decide) hc t
    have hlen : ((92 :: 48 :: c :: r : Bytes).length : Int) + k - 1 = r.length + (k + 2) := by
      simp only [List.length_cons]
      omega
    refine ⟨t', ?_⟩
    rw [List.cons_append, List.cons_append, bodyLoop_escape hshift, hlen, hrun, ok_bind, unescape]
    simp only [List.cons_append, List.length_cons]
    congr 2
    omega
  | case2 =>
    obtain ⟨fuel, rfl⟩ : ∃ n, fuel = n + 2 := ⟨fuel - 2, by simp at hf; omega⟩
    refine ⟨0 :: t, ?_⟩
    have hshift : shiftTail (48 :: 0 :: t) = .ok (0 :: 0 :: t) :=
      shiftTail_string (s := []) (by decide) (by simp) t
    rw [List.cons_append, List.cons_append, List.nil_append, bodyLoop_escape hshift, bodyLoop_nul,
      ok_bind]
    simp only [unescape, List.cons_append, List.nil_append, List.length_cons, List.length_nil]
    congr 2
    omega
  | case3 c r hne hne' ih =>
    obtain ⟨fuel, rfl⟩ : ∃ n, fuel = n + 1 := ⟨fuel - 1, by omega⟩
    rw [List.mem_cons, not_or] at hs
    rw [List.length_cons] at hf
    obtain ⟨t', hrun⟩ := ih t (k + 1) (by omega : r.length < fuel) hs.2
    have hchar : ¬(c = 92 ∧ (r ++ 0 :: t).head? = some 48) := by
      rintro ⟨hc, hr⟩
      refine not_escape hne hne' ⟨hc, ?_⟩
      cases r with
      | nil => cases hr
      | cons d r => exact hr
    have hlen : ((c :: r : Bytes).length : Int) + k = r.length + (k + 1) := by
      rw [List.length_cons]
      omega
    refine ⟨t', ?_⟩
    rw [List.cons_append, bodyLoop_char (Ne.symm hs.1) hchar, hlen, hrun, ok_bind,
      unescape.eq_3 c r hne hne']
    simp only [List.cons_append, List.length_cons]
    congr 2
    omega
  | case4 =>
    obtain ⟨fuel, rfl⟩ : ∃ n, fuel = n + 1 := ⟨fuel - 1, by omega⟩
    exact ⟨t, rfl⟩

/-! ## All escapes -/

/-- Every `\0` from the left replaced by a NUL. -/
def decodeNuls : Bytes → Bytes
  | 92 :: 48 :: r => 0 :: decodeNuls r
  | c :: r => c :: decodeNuls r
  | [] => []

/-- Two escapes in a row. -/
def twoEscapes : Bytes := [92, 48, 92, 48]

theorem decodeNuls_char {c : UInt8} {r : Bytes} (h : ¬(c = 92 ∧ r.head? = some 48)) :
    decodeNuls (c :: r) = c :: decodeNuls r := by
  refine decodeNuls.eq_2 c r fun r' hc hr => h ⟨hc, ?_⟩
  rw [hr]
  rfl

theorem twoEscapes_char {c : UInt8} {r : Bytes} (h : ¬(c = 92 ∧ r.head? = some 48)) :
    twoEscapes <:+: c :: r ↔ twoEscapes <:+: r := by
  rw [List.infix_cons_iff]
  refine or_iff_right fun ⟨t, ht⟩ => h ?_
  cases ht
  exact ⟨rfl, rfl⟩

/-- The scan goes on behind the character that follows an escape, so it misses an escape right
there; others it finds. -/
theorem unescape_eq_iff (s : Bytes) : unescape s = decodeNuls s ↔ ¬twoEscapes <:+: s := by
  induction s using unescape.induct with
  | case1 c r ih =>
    have h48 : ∀ l : Bytes, ¬((48 : UInt8) = 92 ∧ l.head? = some 48) := fun l h => by
      cases h.1
    rw [unescape, decodeNuls, List.cons_inj_right, List.infix_cons_iff, twoEscapes_char (h48 _)]
    by_cases hesc : c = 92 ∧ r.head? = some 48
    · obtain ⟨rfl, hr⟩ := hesc
      obtain ⟨r', rfl⟩ := List.head?_eq_some_iff.mp hr
      have hpre : twoEscapes <+: 92 :: 48 :: 92 :: 48 :: r' := ⟨r', rfl⟩
      simp [decodeNuls, hpre]
    · have hpre : ¬twoEscapes <+: 92 :: 48 :: c :: r := by
        rintro ⟨t, ht⟩
        cases ht
        exact hesc ⟨rfl, rfl⟩
      rw [decodeNuls_char hesc, List.cons_inj_right, twoEscapes_char hesc, ih]
      simp [hpre]
  | case2 => decide
  | case3 c r hne hne' ih =>
    have hesc := not_escape hne hne'
    rw [unescape.eq_3 c r hne hne', decodeNuls_char hesc, List.cons_inj_right,
      twoEscapes_char hesc, ih]
  | case4 => decide

/-! ## The commands -/

inductive ReqOpt where
  | url (v : Bytes)
  | proto (v : Bytes)
  | method (v : Bytes)
  | req (v : Bytes)
  | up (v : Bytes)
  | nouseragent
  deriving DecidableEq, Repr

def ReqOpt.av : ReqOpt → List Bytes
  | .url v => [ascii "-url", v]
  | .proto v => [ascii "-proto", v]
  | .method v => [ascii "-method", v]
  | .req v => [ascii "-req", v]
  | .up v => [ascii "-up", v]
  | .nouseragent => [ascii "-nouseragent"]

def ReqOpt.apply (l : ReqLine) : ReqOpt → ReqLine
  | .url v => { l with url := v }
  | .proto v => { l with proto := v }
  | .method v => { l with req := v, headMethod := v = ascii "HEAD" }
  | .req v => { l with req := v, headMethod := v = ascii "HEAD" }
  | .up v => { l with up := some v }
  | .nouseragent => { l with nouseragent := true }

theorem reqArgs_line :
    ∀ (opts : List ReqOpt) (l : ReqLine) (av : List Bytes),
      reqArgs (opts.flatMap ReqOpt.av ++ av) l = reqArgs av (opts.foldl ReqOpt.apply l) := by
  intro opts
  induction opts with
  | nil => intro l av; rfl
  | cons o opts ih =>
    intro l av
    rw [List.flatMap_cons, List.append_assoc, List.foldl_cons, ← ih]
    cases o with
    | url v => rfl
    | proto v => rfl
    | method v => rfl
    | req v => rfl
    | up v => rfl
    | nouseragent =>
      cases hr : opts.flatMap ReqOpt.av ++ av with
      | nil => rfl
      | cons a r => rfl

/-- The options of the request line. -/
def reqNames : List Bytes :=
  [ascii "-url", ascii "-proto", ascii "-method", ascii "-req", ascii "-up", ascii "-nouseragent"]

theorem reqArgs_stop {a : Bytes} (h : a ∉ reqNames) (av : List Bytes) (l : ReqLine) :
    reqArgs (a :: av) l = .ok (l, a :: av) := by
  simp only [reqNames, List.mem_cons, List.not_mem_nil, or_false, not_or] at h
  obtain ⟨h1, h2, h3, h4, h5, h6⟩ := h
  cases av with
  | nil => simp [reqArgs, h1, h2, h3, h4, h5, h6]
  | cons v av => simp [reqArgs, h1, h2, h3, h4, h5, h6]

theorem reqArgs_rest (hdrs : List HdrOpt) (bodies : List BodyOpt) (l : ReqLine) :
    reqArgs (hdrs.flatMap HdrOpt.av ++ bodies.flatMap BodyOpt.av) l =
      .ok (l, hdrs.flatMap HdrOpt.av ++ bodies.flatMap BodyOpt.av) := by
  have hnames : ∀ a ∈ hdrNames ++ bodyNames, a ∉ reqNames := by decide
  rcases opts_cases hdrs bodies with hnil | ⟨a, r, hav, ha⟩
  · rw [hnil]
    rfl
  · rw [hav]
    exact reqArgs_stop (hnames a ha) r l

/-- `txreq` or `txresp` with the options of its first line. -/
inductive MsgCmd where
  | txreq (line : List ReqOpt)
  | txresp (line : List LineOpt)

/-- The command with the options of `http_tx_parse_args`. -/
def MsgCmd.send (sess : Sess) (hp : TxHttp) (hdrs : List HdrOpt) (bodies : List BodyOpt) :
    MsgCmd → Res TxHttp
  | .txreq line =>
    (cmdHttpTxreq sess hp (line.flatMap ReqOpt.av ++
      (hdrs.flatMap HdrOpt.av ++ bodies.flatMap BodyOpt.av))).map (·.1)
  | .txresp line =>
    cmdHttpTxresp sess hp (line.flatMap LineOpt.av ++
      (hdrs.flatMap HdrOpt.av ++ bodies.flatMap BodyOpt.av))

/-- The line that announces a body, unless an option leaves it out. -/
def lengthLine (hdrs : List HdrOpt) (len : Nat) : Bytes :=
  if hdrs.any HdrOpt.nolen? then [] else ascii "Content-Length: " ++ decimal len ++ nl

theorem isNull_hdrs (opts : List HdrOpt) (t : Tx) :
    (opts.foldl HdrOpt.apply t).isNull = t.isNull := by
  induction opts generalizing t with
  | nil => rfl
  | cons o opts ih =>
    rw [List.foldl_cons, ih]
    cases o <;> rfl

/-- The message of a body ends in its length, the empty line and the body. -/
theorem Tx.finish_body (sess : Sess) {t : Tx} {b : Bytes} (hb : t.body = some b) :
    ∃ head, t.finish sess = head ++
      (if t.nolen then [] else ascii "Content-Length: " ++ decimal b.length ++ nl) ++ nl ++ b := by
  rw [Tx.finish, hb]
  exact ⟨_, rfl⟩

theorem httpTxParseArgs_body (sess : Sess) (hdrs : List HdrOpt) (s : Bytes) {t : Tx}
    (hnull : t.isNull = true) (hlen : t.nolen = false) :
    ∃ t' head, httpTxParseArgs sess
        (hdrs.flatMap HdrOpt.av ++ [BodyOpt.body s].flatMap BodyOpt.av) t = .ok (t', []) ∧
      t'.vsb = head ++ lengthLine hdrs (unescape s).length ++ nl ++ unescape s := by
  have hopt : [BodyOpt.body s].foldlM (BodyOpt.apply sess) (hdrs.foldl HdrOpt.apply t) =
      .ok ((hdrs.foldl HdrOpt.apply t).setBody sess (unescape s)) := by
    rw [List.foldlM_cons, BodyOpt.apply, Tx.optBody, isNull_hdrs, hnull]
    rfl
  obtain ⟨head, hfin⟩ := Tx.finish_body sess
    (rfl : ((hdrs.foldl HdrOpt.apply t).setBody sess (unescape s)).body = some (unescape s))
  have hnolen : ((hdrs.foldl HdrOpt.apply t).setBody sess (unescape s)).nolen =
      hdrs.any HdrOpt.nolen? := by
    rw [Tx.setBody, nolen_hdrs, hlen, Bool.false_or]
  rw [hnolen] at hfin
  rw [httpTxParseArgs_opts, hopt]
  exact ⟨_, head, rfl, hfin⟩

theorem MsgCmd.send_body (cmd : MsgCmd) (sess : Sess) (hp : TxHttp) (hdrs : List HdrOpt)
    (s : Bytes) :
    ∃ hp' head, cmd.send sess hp hdrs [.body s] = .ok hp' ∧
      hp'.vsb = head ++ lengthLine hdrs (unescape s).length ++ nl ++ unescape s := by
  cases cmd with
  | txreq line =>
    obtain ⟨t', head, hargs, hvsb⟩ := @httpTxParseArgs_body
      { sess with reused := fun _ => false } hdrs s
      ((line.foldl ReqOpt.apply {}).start hp) rfl rfl
    refine ⟨{ vsb := t'.vsb, gziplevel := t'.gziplevel, gzipresidual := t'.gzipresidual }, head,
      ?_, hvsb⟩
    rw [MsgCmd.send, cmdHttpTxreq, reqArgs_line, reqArgs_rest, ok_bind]
    dsimp only
    rw [hargs]
    rfl
  | txresp line =>
    obtain ⟨t', head, hargs, hvsb⟩ := @httpTxParseArgs_body sess hdrs s
      (({ line := line } : RespCmd).start hp) rfl rfl
    refine ⟨{ vsb := t'.vsb, gziplevel := t'.gziplevel, gzipresidual := t'.gzipresidual }, head,
      ?_, hvsb⟩
    rw [MsgCmd.send, cmdHttpTxresp, respArgs_line, respArgs_rest, ok_bind]
    dsimp only
    rw [RespCmd.start, RespCmd.respLine] at hargs
    rw [hargs]
    rfl

/-- Both commands send the body that the loop leaves, and its length. It is the string with every
escape decoded just if no two escapes follow each other. -/
theorem body_nul_escapes_iff (cmd : MsgCmd) (sess : Sess) (hp : TxHttp) (hdrs : List HdrOpt)
    {s : Bytes} (hs : 0 ∉ s) :
    ∃ hp' head body mem, cmd.send sess hp hdrs [.body s] = .ok hp' ∧
      hp'.vsb = head ++ lengthLine hdrs body.length ++ nl ++ body ∧
      bodyString s = .ok (mem, body.length) ∧ body = mem.take body.length ∧
      (body = decodeNuls s ↔ ¬twoEscapes <:+: s) := by
  obtain ⟨hp', head, hsend, hvsb⟩ := cmd.send_body sess hp hdrs s
  obtain ⟨t, hrun⟩ := bodyLoop_spec s [] 0 (Nat.lt_succ_self _) hs
  refine ⟨hp', head, unescape s, unescape s ++ 0 :: t, hsend, hvsb, ?_, ?_, unescape_eq_iff s⟩
  · rw [Int.add_zero, Int.add_zero] at hrun
    exact hrun
  · simp

/-- A client `c1`, without files and compressor. -/
def clientSess : Sess where
  name := ascii "c1"
  localhost := ascii "127.0.0.1"
  date := []
  readfile := fun _ => none
  gzip := fun _ _ _ => .error .fatal
  reused := fun _ => false

theorem body_nul_escapes_abc :
    0 ∉ ascii "a\\0b\\0c" ∧ ¬twoEscapes <:+: ascii "a\\0b\\0c" ∧
    ∃ hp' head body mem,
      (MsgCmd.txreq []).send clientSess {} [] [.body (ascii "a\\0b\\0c")] = .ok hp' ∧
      hp'.vsb = head ++ lengthLine [] body.length ++ nl ++ body ∧
      bodyString (ascii "a\\0b\\0c") = .ok (mem, body.length) ∧ body = mem.take body.length ∧
      (body = decodeNuls (ascii "a\\0b\\0c") ↔ ¬twoEscapes <:+: ascii "a\\0b\\0c") :=
  have hs : 0 ∉ ascii "a\\0b\\0c" := by decide +kernel
  ⟨hs, by decide +kernel, body_nul_escapes_iff (.txreq []) clientSess {} [] hs⟩

/-- Of two escapes in a row the second one is sent as it is written. -/
theorem second_escape_missed :
    ((MsgCmd.txreq []).send clientSess {} [] [.body (ascii "\\0\\0")]).map TxHttp.vsb =
        .ok (ascii "GET / HTTP/1.1\r\nHost: 127.0.0.1\r\nUser-Agent: c1\r\n" ++
          ascii "Content-Length: 3\r\n\r\n" ++ [0, 92, 48]) ∧
      decodeNuls (ascii "\\0\\0") = [0, 0] := by
  decide +kernel

end Http1
end VTest
