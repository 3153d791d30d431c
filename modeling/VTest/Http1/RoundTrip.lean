import VTest.Lib.Run
import VTest.Http1.RxSpec

/-!
# VTest.Http1.RoundTrip

Responses that are sent with `txresp` one after the other on one connection, and received with
`rxresp`, arrive as they were sent.

* `cmdHttpRxresp_spec`: one `rxresp` takes one response off the connection, and nothing else.
* `RespCmd.Ok.framed`: the header lines of a `txresp` announce the length of the body, once.
-/

namespace VTest
namespace Http1

/-- `static unsigned nrxbuf` of a session. -/
def nrxbuf : Nat := 2048 * 1024

/-! ## Receiving one response -/

/-- The parts of a response, as the commands that look at a received response find them. -/
structure Delivered (r : Resp) (hp : Http) : Prop where
  proto : hp.field 0 = some r.proto
  status : hp.field 1 = some r.status
  reason : hp.field 2 = some r.reason
  lines : hp.lines = r.lines
  body : ∃ p, hp.body = some p ∧ Holds hp.mem p r.body
  bodyl : hp.bodyl = r.body.length
  bodylen : hp.bodylen = decimal r.body.length

/-- The header lines announce the length of the body, and nothing else about it. -/
structure Resp.Framed (r : Resp) : Prop where
  te : httpFindHeader r.lines (ascii "transfer-encoding") = none
  cl : httpFindHeader r.lines (ascii "content-length") = some (decimal r.body.length)
  one : httpCountHeader r.lines (ascii "Content-Length") ≤ 1

theorem decimalInt_ofNat (n : Nat) : decimalInt n = decimal n := by
  rw [decimalInt, if_neg (by omega), Int.toNat_natCast]

/-- The body is read as `Content-Length` says. -/
theorem httpSwallowBody_spec {r : Resp} (hf : r.Framed) {hp : Http} {a t rest : Bytes} {b : Bool}
    (hl : hp.lines = r.lines) (hm : hp.mem = a ++ t) (hp0 : hp.rxp = a.length)
    (hbody : hp.body = some a.length) (hs : hp.stream = r.body ++ rest) (hb : Benign hp.turns)
    (hroom : r.body.length < t.length) (hlen : r.body.length < 2 ^ 31) :
    ∃ t' turns, httpSwallowBody hp b 0 =
        .ok ((hp.taken a r.body t' rest turns).setBodylen r.body.length) ∧
      Benign turns ∧ t'.length + r.body.length = t.length := by
  obtain ⟨t', turns, hrx, hb', hlen', _⟩ := httpRxchar_spec false hb hm hp0 hs hroom
  refine ⟨t', turns, ?_, hb', hlen'⟩
  have hv : toInt32 (strtoul 10 (decimal r.body.length)).1 = r.body.length := by
    rw [strtoul_decimal (by omega), toInt32_of_lt hlen]
  rw [httpSwallowBody, hbody]
  simp only [hl, hf.te, hf.cl, Option.any_none, hv, hp0, Int.sub_self, Bool.false_eq_true, if_false,
    ne_eq, not_true_eq_false, false_and, Int.sub_zero, Int.zero_add, hrx, ok_bind]
  rfl

theorem cmdHttpRxresp_spec {r : Resp} (hw : r.Wf) (hf : r.Framed) (hn : r.lines.length ≤ 60)
    {hp : Http} {rest : Bytes} (hs : hp.stream = r.bytes ++ rest) (hb : Benign hp.turns)
    (hm : hp.mem.length = nrxbuf) (hlen : r.bytes.length < nrxbuf) (hh : hp.headMethod = false) :
    ∃ hp', cmdHttpRxresp hp true = .ok hp' ∧ Delivered r hp' ∧ hp'.stream = rest ∧
      Benign hp'.turns ∧ hp'.mem.length = nrxbuf ∧ hp'.headMethod = false := by
  have hbytes : r.bytes.length = r.head.length + r.body.length := by
    rw [Resp.bytes, List.length_append]
  rw [Resp.bytes, List.append_assoc] at hs
  obtain ⟨j, turns, hrx, hb1, hlen1, -⟩ := httpRxhdr_spec (Resp.endsAt_head hw) hb hs (by omega)
  rw [hm] at hlen1
  have hcut := r.length_cut
  -- the header has been cut, and the body is still to come
  let hp1 : Http :=
    { hp with
      mem := r.cut ++ nl ++ 0 :: j, rxp := r.head.length, body := some r.head.length,
      bodylen := undef, resp := r.fields, stream := r.body ++ rest, turns := turns }
  have hmem1 : hp1.mem = r.cut ++ (nl ++ 0 :: j) := List.append_assoc _ _ _
  obtain ⟨h0, h1, _⟩ := field_spec hw hmem1 rfl
  have hl1 : hp1.lines = r.lines := lines_spec hw hmem1 rfl
  have hone : decide (1 < httpCountHeader hp1.lines (ascii "Content-Length")) = false := by
    rw [hl1]
    exact decide_eq_false (by have := hf.one; omega)
  obtain ⟨t', turns', hsw, hb2, hlen2⟩ :=
    httpSwallowBody_spec (b := decide (hp1.field 1 = some (ascii "200"))) hf hl1
      (a := r.cut ++ nl) (t := 0 :: j) rfl hcut.symm (congrArg some hcut.symm) rfl hb1
      (by simp only [List.length_append] at hlen1; omega) (by simp only [nrxbuf] at hlen; omega)
  have hrun : cmdHttpRxresp hp true = httpSwallowBody hp1 (hp1.field 1 = some (ascii "200")) 0 := by
    have hh1 : hp1.headMethod = false := hh
    rw [cmdHttpRxresp, hrx, ok_bind, httpSplitheader_spec hw hn, ok_bind]
    show (do
      fatalIf (1 < httpCountHeader hp1.lines (ascii "Content-Length"))
      if !true || (hp1.field 0).isNone || (hp1.field 1).isNone || hp1.headMethod then return hp1
      else httpSwallowBody hp1 (hp1.field 1 = some (ascii "200")) 0) = _
    rw [hone, h0, h1, hh1]
    rfl
  refine ⟨_, hrun.trans hsw, ?_, rfl, hb2, ?_, hh⟩
  · have hmem2 : ((hp1.taken (r.cut ++ nl) r.body t' rest turns').setBodylen r.body.length).mem =
        r.cut ++ (nl ++ (r.body ++ t')) := by
      simp [Http.taken, Http.setBodylen]
    obtain ⟨f0, f1, f2⟩ := field_spec hw hmem2 rfl
    exact ⟨f0, f1, f2, lines_spec hw hmem2 rfl,
      ⟨(r.cut ++ nl).length, congrArg some hcut.symm, holds_append _ _ _⟩, rfl,
      decimalInt_ofNat _⟩
  · simp only [Http.setBodylen, Http.taken, List.length_append, List.length_cons]
      at hlen1 hlen2 hcut ⊢
    omega

/-! ## The lines of a command -/

/-- A header line that is received as it is, and says nothing about the body. -/
def Plain (l : Bytes) : Prop :=
  l ≠ [] ∧ Printable l ∧ startsCI (ascii "Content-Length:") l = false ∧
    startsCI (ascii "Transfer-Encoding:") l = false

/-- The arguments of a `txresp`, and the texts of its automatic lines, are such that the message is
well formed. -/
structure RespCmd.Ok (sess : Sess) (cmd : RespCmd) : Prop where
  proto : Word cmd.respLine.proto
  status : Word cmd.respLine.status
  reason : Printable cmd.respLine.reason
  reason_head : ∀ b ∈ cmd.respLine.reason.head?, issp b = false
  nolen : HdrOpt.nolen ∉ cmd.hdrs
  hdrs : ∀ o ∈ cmd.hdrs, ∀ l ∈ o.line?, Plain l
  date : cmd.nodate = false → Printable sess.date
  name : cmd.noserver = false → Printable sess.name

/-- A header of that name starts with the name and a colon. -/
theorem startsCI_of_headerIs {hdr name s : Bytes} (hn : name.map lower = hdr.map lower ++ [58])
    (h : headerIs hdr s = true) : startsCI name s = true := by
  have hlen : name.length = hdr.length + 1 := by simpa using congrArg List.length hn
  simp only [headerIs, startsCI, Bool.and_eq_true, decide_eq_true_eq] at h ⊢
  rw [hlen, List.take_add_one, h.2, List.map_append, h.1, hn]
  rfl

theorem printable_decimal (n : Nat) : Printable (decimal n) := by
  have h : ∀ d : Fin 10, digit d ≠ 13 ∧ digit d ≠ 10 ∧ digit d ≠ 0 := by decide
  intro b hb
  obtain ⟨d, hd, rfl⟩ := mem_decimal hb
  exact h ⟨d, hd⟩

/-- The beginning of a line decides which header it is. -/
theorem headerIs_cons_ne {a b : UInt8} (hdr s : Bytes) (h : lower b ≠ lower a) :
    headerIs (a :: hdr) (b :: s) = false := by
  rw [headerIs, startsCI_cons_ne hdr s h, Bool.false_and]

theorem Plain.headerIs {l : Bytes} (h : Plain l) :
    headerIs (ascii "content-length") l = false ∧ headerIs (ascii "Content-Length") l = false ∧
      headerIs (ascii "transfer-encoding") l = false := by
  obtain ⟨_, _, hcl, hte⟩ := h
  refine ⟨?_, ?_, ?_⟩
  · refine Bool.eq_false_iff.mpr fun hh => ?_
    exact absurd (startsCI_of_headerIs (by decide +kernel) hh) (Bool.eq_false_iff.mp hcl)
  · refine Bool.eq_false_iff.mpr fun hh => ?_
    exact absurd (startsCI_of_headerIs (by decide +kernel) hh) (Bool.eq_false_iff.mp hcl)
  · refine Bool.eq_false_iff.mpr fun hh => ?_
    exact absurd (startsCI_of_headerIs (by decide +kernel) hh) (Bool.eq_false_iff.mp hte)

theorem plain_gzipLine : Plain gzipLine := by
  unfold Plain Printable
  decide +kernel

/-- An automatic line. -/
theorem plain_auto {b : UInt8} (name : Bytes) {w : Bytes} (hp : Printable (b :: name))
    (hc : lower b ≠ lower 67) (ht : lower b ≠ lower 84) (hw : Printable w) :
    Plain (b :: name ++ w) :=
  ⟨List.cons_ne_nil _ _, hp.append hw, startsCI_cons_ne _ _ hc, startsCI_cons_ne _ _ ht⟩

/-- The lines in front of `Content-Length`. -/
def RespCmd.others (sess : Sess) (cmd : RespCmd) : List Bytes :=
  cmd.hdrs.filterMap HdrOpt.line? ++ cmd.bodies.filterMap BodyOpt.line? ++
  (if cmd.nodate then [] else [ascii "Date: " ++ sess.date]) ++
  (if cmd.noserver then [] else [ascii "Server: " ++ sess.name])

def clLine (len : Nat) : Bytes := ascii "Content-Length: " ++ decimal len

theorem RespCmd.lines_eq (sess : Sess) (cmd : RespCmd) (len : Nat) :
    cmd.lines sess len = cmd.others sess ++ [clLine len] := rfl

theorem RespCmd.Ok.plain {sess : Sess} {cmd : RespCmd} (h : cmd.Ok sess) :
    ∀ l ∈ cmd.others sess, Plain l := by
  intro l hl
  simp only [RespCmd.others, List.mem_append, List.mem_filterMap] at hl
  rcases hl with ((⟨o, ho, hl⟩ | ⟨o, _, hl⟩) | hl) | hl
  · exact h.hdrs o ho l hl
  · cases o <;> cases hl <;> exact plain_gzipLine
  · split at hl
    · cases hl
    · rename_i hd
      cases List.mem_singleton.mp hl
      refine plain_auto (ascii "ate: ") ?_ ?_ ?_ (h.date (by simpa using hd))
      · unfold Printable; decide +kernel
      · decide
      · decide
  · split at hl
    · cases hl
    · rename_i hn
      cases List.mem_singleton.mp hl
      refine plain_auto (ascii "erver: ") ?_ ?_ ?_ (h.name (by simpa using hn))
      · unfold Printable; decide +kernel
      · decide
      · decide

theorem printable_clLine (len : Nat) : Printable (clLine len) := by
  refine Printable.append ?_ (printable_decimal len)
  unfold Printable
  decide +kernel

theorem dropWhile_decimal (len : Nat) : (decimal len).dropWhile issp = decimal len := by
  have hd : ∀ d : Fin 10, issp (digit d) = false := by decide
  obtain ⟨d, r, hlt, hr⟩ := decimal_head len
  rw [hr, List.dropWhile_cons_of_neg (by simp [hd ⟨d, hlt⟩])]

/-- The header lines of a command announce the length of its body, once. -/
theorem RespCmd.Ok.framed {sess : Sess} {cmd : RespCmd} (h : cmd.Ok sess) {r : Resp}
    (hl : r.lines = cmd.lines sess r.body.length) : r.Framed := by
  have hte : ∀ len, headerIs (ascii "transfer-encoding") (clLine len) = false :=
    fun len => headerIs_cons_ne _ _ (by decide)
  have hcl : ∀ len, headerIs (ascii "content-length") (clLine len) = true := fun len => rfl
  have hnone : ∀ hdr, (∀ l, Plain l → headerIs hdr l = false) →
      (cmd.others sess).find? (headerIs hdr) = none := by
    intro hdr hh
    refine List.find?_eq_none.mpr fun l hm => ?_
    rw [hh l (h.plain l hm)]
    exact Bool.false_ne_true
  rw [RespCmd.lines_eq] at hl
  refine ⟨?_, ?_, ?_⟩
  · rw [httpFindHeader, hl, List.find?_append, hnone _ fun l hp => hp.headerIs.2.2]
    simp [hte]
  · rw [httpFindHeader, hl, List.find?_append, hnone _ fun l hp => hp.headerIs.1]
    simp only [List.find?_cons, hcl, Option.none_or, Option.map_some]
    exact congrArg some (dropWhile_decimal r.body.length)
  · have hzero : (cmd.others sess).countP (headerIs (ascii "Content-Length")) = 0 :=
      List.countP_eq_zero.mpr fun l hm => by simp [(h.plain l hm).headerIs.2.1]
    rw [httpCountHeader, hl, List.countP_append, hzero, Nat.zero_add]
    exact List.countP_le_length

theorem RespCmd.Ok.wf {sess : Sess} {cmd : RespCmd} (h : cmd.Ok sess) {hp : TxHttp} {r : Resp}
    (hr : cmd.resp sess hp = .ok r) : r.Wf ∧ r.Framed := by
  obtain ⟨t, _, ht⟩ := bind_eq_ok.mp hr
  cases ht
  refine ⟨⟨h.proto, h.status, h.reason, h.reason_head, ?_⟩, h.framed rfl⟩
  intro l hl
  rw [RespCmd.lines_eq] at hl
  rcases List.mem_append.mp hl with hl | hl
  · exact ⟨(h.plain l hl).1, (h.plain l hl).2.1⟩
  · cases List.mem_singleton.mp hl
    exact ⟨List.cons_ne_nil _ _, printable_clLine _⟩

theorem RespCmd.Ok.nolen? {sess : Sess} {cmd : RespCmd} (h : cmd.Ok sess) :
    cmd.hdrs.any HdrOpt.nolen? = false := by
  refine List.any_eq_false.mpr fun o ho => ?_
  cases o with
  | nolen => exact absurd ho h.nolen
  | hdr s =>
    obtain ⟨_, _, hcl, hte⟩ := h.hdrs _ ho s rfl
    simp [HdrOpt.nolen?, HdrOpt.names, hcl, hte]
  | nohost => simp [HdrOpt.nolen?, HdrOpt.names]
  | nodate => simp [HdrOpt.nolen?, HdrOpt.names]
  | hdrlen s n => simp [HdrOpt.nolen?, HdrOpt.names]

/-! ## Many responses -/

/-- A command that has been executed: what it was, the response it denotes, and what it wrote. -/
structure Sent where
  sess : Sess
  cmd : RespCmd
  resp : Resp
  msg : Bytes

/-- The command takes the sending side from one state to the next. -/
structure Sends (hp : TxHttp) (x : Sent) (hp' : TxHttp) : Prop where
  run : cmdHttpTxresp x.sess hp x.cmd.av = .ok hp'
  resp : x.cmd.resp x.sess hp = .ok x.resp
  msg : x.msg = hp'.vsb

/-- `rxresp` so many times: the state behind each of them. -/
def rxresps : Nat → Http → Res (List Http)
  | 0, _ => .ok []
  | n + 1, hp => do
    let hp ← cmdHttpRxresp hp true
    let hps ← rxresps n hp
    return hp :: hps

/-- The bytes of messages that are still to be received. -/
def wire (xs : List Sent) : Bytes := (xs.map Sent.msg).flatten

/-- Every response arrives as it was sent, and the connection is left where the next one starts. -/
theorem responses_survive_round_trip {tx tx' : TxHttp} {xs : List Sent}
    (hpath : Path Sends tx xs tx') :
    ∀ (hp : Http) (rest : Bytes), (∀ x ∈ xs, x.cmd.Ok x.sess) →
      (∀ x ∈ xs, x.resp.lines.length ≤ 60) → (∀ x ∈ xs, x.msg.length < nrxbuf) →
      hp.stream = wire xs ++ rest → Benign hp.turns → hp.mem.length = nrxbuf →
      hp.headMethod = false →
      ∃ hps, rxresps xs.length hp = .ok hps ∧ hps.length = xs.length ∧
        ∀ (i : Nat) (x : Sent) (hp' : Http), xs[i]? = some x → hps[i]? = some hp' →
          Delivered x.resp hp' ∧ hp'.stream = wire (xs.drop (i + 1)) ++ rest := by
  induction hpath with
  | nil =>
    intro hp rest _ _ _ _ _ _ _
    exact ⟨[], rfl, rfl, fun i x hp' hx _ => by simp at hx⟩
  | @cons tx tx1 tx2 x xs hx _ ih =>
    intro hp rest hok hn hlen hs hb hm hh
    obtain ⟨hwf, hframed⟩ := (hok x List.mem_cons_self).wf hx.resp
    have hmsg : x.msg = x.resp.bytes := by
      obtain ⟨r, hr, hvsb⟩ := cmdHttpTxresp_inv (hok x List.mem_cons_self).nolen? hx.run
      rw [hx.resp] at hr
      cases hr
      rw [hx.msg, hvsb]
    have hs' : hp.stream = x.resp.bytes ++ (wire xs ++ rest) := by
      rw [hs, ← hmsg]
      simp [wire]
    obtain ⟨hp1, hrun, hdel, hs1, hb1, hm1, hh1⟩ :=
      cmdHttpRxresp_spec hwf hframed (hn x List.mem_cons_self) hs' hb hm
        (hmsg ▸ hlen x List.mem_cons_self) hh
    obtain ⟨hps, hruns, hlens, hall⟩ :=
      ih hp1 rest (fun y hy => hok y (List.mem_cons_of_mem x hy))
        (fun y hy => hn y (List.mem_cons_of_mem x hy))
        (fun y hy => hlen y (List.mem_cons_of_mem x hy)) hs1 hb1 hm1 hh1
    refine ⟨hp1 :: hps, ?_, by simp [hlens], ?_⟩
    · rw [List.length_cons, rxresps, hrun, ok_bind, hruns]
      rfl
    · intro i y hp' hy hy'
      cases i with
      | zero => cases hy; cases hy'; exact ⟨hdel, hs1⟩
      | succ i => exact hall i y hp' hy hy'

/-- A session without surroundings, and a short response. -/
def bareSess : Sess :=
  { name := [], localhost := [], date := [], readfile := fun _ => none,
    gzip := fun _ _ _ => .error .fatal, reused := fun _ => false }

def shortSent : Sent :=
  { sess := bareSess
    cmd := { line := [.proto [72], .status [50], .reason [], .noserver]
             hdrs := [.nodate, .hdr [65, 58]]
             bodies := [.body [98]] }
    resp := { proto := [72]
              status := [50]
              reason := []
              lines := [[65, 58], clLine 1]
              body := [98] }
    msg := [72, 32, 50, 32, 13, 10, 65, 58, 13, 10] ++ clLine 1 ++ [13, 10, 13, 10, 98] }

theorem shortSent_sends (tx : TxHttp) : Sends tx shortSent { tx with vsb := shortSent.msg } where
  run := rfl
  resp := rfl
  msg := rfl

theorem shortSent_ok : shortSent.cmd.Ok shortSent.sess where
  proto := by unfold Word; decide +kernel
  status := by unfold Word; decide +kernel
  reason := by intro b hb; cases hb
  reason_head := by intro b hb; cases hb
  nolen := by decide +kernel
  hdrs := by
    intro o ho l hl
    simp only [shortSent, List.mem_cons, List.not_mem_nil, or_false] at ho
    rcases ho with rfl | rfl
    · cases hl
    · cases hl
      unfold Plain Printable
      decide +kernel
  date := by intro h; cases h
  name := by intro h; cases h

theorem responses_survive_round_trip_two :
    ∃ hps, rxresps 2 { mem := List.replicate nrxbuf 0, stream := wire [shortSent, shortSent] } =
        .ok hps ∧ hps.length = 2 ∧
      ∀ hp ∈ hps[1]?, Delivered shortSent.resp hp ∧ hp.stream = [] := by
  have hmsg : shortSent.msg.length < nrxbuf := by
    rw [show shortSent.msg.length = 32 from rfl, nrxbuf]
    omega
  obtain ⟨hps, hrun, hlen, hall⟩ :=
    responses_survive_round_trip (.cons (shortSent_sends {}) (.cons (shortSent_sends _) .nil))
      { mem := List.replicate nrxbuf 0, stream := wire [shortSent, shortSent] } []
      (by simp [shortSent_ok]) (by simp [shortSent]) (by simp [hmsg])
      (List.append_nil _).symm benign_nil (List.length_replicate ..) rfl
  refine ⟨hps, hrun, hlen, fun hp hhp => ?_⟩
  exact hall 1 shortSent hp rfl hhp

end Http1
end VTest
