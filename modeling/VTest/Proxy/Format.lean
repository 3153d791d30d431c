import VTest.Lib.Tlv
import VTest.Proxy.Send

/-!
# VTest.Proxy.Format

What a preamble of version 2 says, and when it says what `client_proxy` was asked to say.

* `decodeV2` reads a preamble according to the PROXY protocol; it is written from the format, not
  from the code.
* `Asked resolve spec q` says that the text `spec` asks for the request `q`: two addresses and
  records. `tlvLoop_eq_ok` and `vtcProxyTlv_eq_ok` say that the code reads the text that way.
* `clientProxy_eq_ok` is what is sent, for every text; `decodeV2_sent` reads it back.
-/

namespace VTest.Proxy

open VTest

/-! ## The format -/

/-- An address and a port, as the format carries them. -/
inductive Endpoint where
  | inet (addr : Octets 4) (port : UInt16)
  | inet6 (addr : Octets 16) (port : UInt16)
  deriving DecidableEq

structure Header where
  client : Endpoint
  server : Endpoint
  tlvs : List Tlv
  deriving DecidableEq

/-- The next `n` bytes and what follows. -/
def takeN (n : Nat) (b : Bytes) : Option (Octets n × Bytes) :=
  if h : n ≤ b.length then some (⟨b.take n, by simp [h]⟩, b.drop n) else none

def takePort : Bytes → Option (UInt16 × Bytes)
  | hi :: lo :: r => some (UInt16.ofNat (hi.toNat * 2 ^ 8 + lo.toNat), r)
  | _ => none

/-- Addresses and ports of `n` bytes each, then records up to the end. -/
def decodeBody (n : Nat) (endpoint : Octets n → UInt16 → Endpoint) (b : Bytes) : Option Header := do
  let (src, b) ← takeN n b
  let (dst, b) ← takeN n b
  let (srcPort, b) ← takePort b
  let (dstPort, b) ← takePort b
  let tlvs ← decodeTlvs b
  some ⟨endpoint src srcPort, endpoint dst dstPort, tlvs⟩

def decodeFamily (fam : UInt8) (b : Bytes) : Option Header :=
  if fam = 0x11 then decodeBody 4 .inet b
  else if fam = 0x21 then decodeBody 16 .inet6 b
  else none

/-- A preamble of version 2 for the command PROXY over TCP: the signature, version and command,
family, the length of what follows. The second component is what comes after the preamble. -/
def decodeV2 (b : Bytes) : Option (Header × Bytes) :=
  if [13, 10, 13, 10, 0, 13, 10, 81, 85, 73, 84, 10, 0x21] <+: b then
    match b.drop 13 with
    | fam :: hi :: lo :: r =>
      if hi.toNat * 2 ^ 8 + lo.toNat ≤ r.length then
        (decodeFamily fam (r.take (hi.toNat * 2 ^ 8 + lo.toNat))).map
          (·, r.drop (hi.toNat * 2 ^ 8 + lo.toNat))
      else none
    | _ => none
  else none

/-! ## What is asked for -/

/-- The bytes that hexadecimal digits spell, two to a byte; a last digit on its own is the upper
half of a byte. -/
def hexPairs : List Nat → Bytes
  | [] => []
  | [a] => [UInt8.ofNat (a * 16)]
  | a :: b :: r => UInt8.ofNat (a * 16 + b) :: hexPairs r

/-- The digits of a text that has nothing else, blanks and newlines apart. -/
def hexDigits (t : Bytes) : Option (List Nat) := (t.filter (!hexBlank ·)).mapM (digitIn 16)

/-- The text `t` spells the bytes `v` in hexadecimal. -/
def SpellsHex (t v : Bytes) : Prop := ∃ ds, hexDigits t = some ds ∧ v = hexPairs ds

/-- The text `t` means the bytes `v`: in hexadecimal after `0x`, otherwise itself. -/
def MeansValue (t v : Bytes) : Prop :=
  (∃ h, t = ascii "0x" ++ h ∧ SpellsHex h v) ∨ (¬ ascii "0x" <+: t ∧ v = t)

/-- The text `t` names the record type `ty`: one byte in hexadecimal after `0x`, or by name. -/
def MeansType (t : Bytes) (ty : UInt8) : Prop :=
  (∃ h, t = ascii "0x" ++ h ∧ SpellsHex h [ty]) ∨ ⟨t, ty⟩ ∈ pp2Types

/-- The text `type=value` asks for the record `t`. Only the first `=` separates; those in front of
the type are skipped. -/
def AsksTlv (kv : Bytes) (t : Tlv) : Prop :=
  ∃ pad name val, kv = pad ++ (name ++ 61 :: val) ∧ (∀ c ∈ pad, c = 61) ∧ name ≠ [] ∧
    (61 : UInt8) ∉ name ∧ val ≠ [] ∧ MeansType name t.type ∧ MeansValue val t.value

/-- What a text asks `client_proxy` to send. -/
structure Request where
  client : SuckAddr
  server : SuckAddr
  tlvs : List Tlv

/-- The words of `spec` are the client's address, the server's, and the records. -/
def Asked (resolve : Bytes → Option SuckAddr) (spec : Bytes) (q : Request) : Prop :=
  ∃ c s kvs, words [32] spec = c :: s :: kvs ∧ resolve c = some q.client ∧
    resolve s = some q.server ∧ List.Forall₂ AsksTlv kvs q.tlvs

def SuckAddr.endpoint : SuckAddr → Endpoint
  | .sa4 port addr => .inet addr port
  | .sa6 port _ addr _ => .inet6 addr port

def Request.header (q : Request) : Header := ⟨q.client.endpoint, q.server.endpoint, q.tlvs⟩

/-! ## Hexadecimal -/

theorem hexDigit_eq (c : UInt8) :
    hexDigit c = match digitIn 16 c with | some d => .ok d | none => .error .fatal := by
  simp only [hexDigit, digitIn, digitVal, UInt8.le_iff_toNat_le, Bool.and_eq_true,
    decide_eq_true_eq, UInt8.reduceToNat]
  by_cases hd : 48 ≤ c.toNat ∧ c.toNat ≤ 57
  · have : c.toNat - 48 < 16 := by omega
    simp [hd, Option.filter, this]
  · rw [if_neg hd, if_neg hd]
    by_cases ha : 97 ≤ c.toNat ∧ c.toNat ≤ 122
    · rw [if_neg (by omega), if_pos ha]
      by_cases hf : c.toNat ≤ 102
      · have : c.toNat - 87 < 16 := by omega
        simp [ha.1, hf, Option.filter, this]
      · have : ¬ c.toNat - 87 < 16 := by omega
        simp [hf, Option.filter, this]
    · rw [if_neg ha]
      by_cases hA : 65 ≤ c.toNat ∧ c.toNat ≤ 90
      · rw [if_pos hA]
        by_cases hf : c.toNat ≤ 70
        · have : c.toNat - 55 < 16 := by omega
          simp [hA.1, hf, Option.filter, this]
        · have : ¬ c.toNat - 55 < 16 := by omega
          rw [if_neg (by omega), if_neg (by omega)]
          simp [Option.filter, this]
      · rw [if_neg (by omega), if_neg (by omega), if_neg hA]
        rfl

theorem digitIn_lt {base d : Nat} {c : UInt8} (h : digitIn base c = some d) : d < base := by
  rw [digitIn, Option.filter_eq_some_iff] at h
  simpa using h.2

@[simp] theorem hexDigits_nil : hexDigits [] = some [] := rfl

theorem hexDigits_blank {c : UInt8} (h : hexBlank c = true) (t : Bytes) :
    hexDigits (c :: t) = hexDigits t := by
  simp [hexDigits, h]

theorem hexDigits_cons {c : UInt8} (h : hexBlank c = false) (t : Bytes) :
    hexDigits (c :: t) = (digitIn 16 c).bind fun d => (hexDigits t).map (d :: ·) := by
  simp only [hexDigits, h, Bool.not_false, List.filter_cons_of_pos, List.mapM_cons]
  cases digitIn 16 c with
  | none => rfl
  | some d => cases (t.filter (!hexBlank ·)).mapM (digitIn 16) <;> rfl

theorem low_half {a d : Nat} (ha : d < 16) : a <<< 4 ||| d <<< 0 = a * 16 + d := by
  rw [Nat.shiftLeft_zero, ← Nat.shiftLeft_add_eq_or_of_lt (by simpa using ha),
    Nat.shiftLeft_eq]

/-- The two states of the loop: no half of a byte is pending, or the upper half `a` is. -/
theorem hexLoop_eq (t : Bytes) : ∀ vsb : Bytes,
    (hexLoop t 4 0 vsb = match hexDigits t with
      | some ds => .ok (vsb ++ hexPairs ds) | none => .error .fatal) ∧
    ∀ a, hexLoop t 0 (a <<< 4) vsb = match hexDigits t with
      | some ds => .ok (vsb ++ hexPairs (a :: ds)) | none => .error .fatal := by
  induction t with
  | nil =>
    intro vsb
    refine ⟨by simp [hexLoop, hexPairs], fun a => ?_⟩
    simp [hexLoop, hexPairs, Nat.shiftLeft_eq]
  | cons c t ih =>
    intro vsb
    by_cases hc : hexBlank c = true
    · simp only [hexLoop, hc, if_true, hexDigits_blank hc]
      exact ih vsb
    · have hc : hexBlank c = false := by simpa using hc
      simp only [hexLoop, hc, Bool.false_eq_true, if_false, hexDigits_cons hc, hexDigit_eq]
      cases hd : digitIn 16 c with
      | none => simp
      | some d =>
        simp only [ok_bind, Option.bind_some, Nat.sub_self, Nat.sub_zero, if_true,
          low_half (digitIn_lt hd), Nat.zero_or]
        constructor
        · rw [if_neg (by omega), (ih vsb).2 d]
          cases hexDigits t <;> rfl
        · intro a
          rw [(ih _).1]
          cases hexDigits t with
          | none => rfl
          | some ds => simp [hexPairs]

/-- `vtc_hex_to_bin` returns the bytes that its text spells, and only those. -/
theorem vtcHexToBin_eq_ok {t v : Bytes} : vtcHexToBin t = .ok v ↔ SpellsHex t v := by
  rw [vtcHexToBin, (hexLoop_eq t []).1]
  cases hd : hexDigits t with
  | none => simp [SpellsHex, hd]
  | some ds => simp [SpellsHex, hd, eq_comm]

/-! ## Records -/

theorem strcmp_eq {s t : Bytes} : strcmp s t = .eq ↔ s = t := by
  induction s generalizing t with
  | nil => cases t <;> simp [strcmp]
  | cons a s ih =>
    cases t with
    | nil => simp [strcmp]
    | cons b t => simp [strcmp, Ordering.then_eq_eq, ih]

/-- What `bsearch` returns is in the table, under the name it was asked for. -/
theorem bsearch_sound {tbl : List Pp2Type} {p : Bytes} {e : Pp2Type} :
    ∀ {fuel lo hi : Nat}, bsearch tbl p fuel lo hi = some e → e ∈ tbl ∧ e.name = p := by
  intro fuel
  induction fuel with
  | zero => intro lo hi h; cases h
  | succ fuel ih =>
    intro lo hi h
    rw [bsearch] at h
    by_cases hlt : lo < hi
    · rw [if_pos hlt] at h
      cases ht : tbl[(lo + hi) / 2]? with
      | none => rw [ht] at h; cases h
      | some x =>
        rw [ht] at h
        cases hs : strcmp p x.name with
        | lt => simp only [hs] at h; exact ih h
        | gt => simp only [hs] at h; exact ih h
        | eq =>
          simp only [hs] at h
          injection h with h
          subst h
          exact ⟨List.mem_of_getElem? ht, (strcmp_eq.mp hs).symm⟩
    · rw [if_neg hlt] at h
      cases h

/-- The table is sorted well enough for every name in it to be found. -/
theorem bsearch_pp2Types : ∀ e ∈ pp2Types,
    bsearch pp2Types e.name (pp2Types.length + 1) 0 pp2Types.length = some e := by
  decide

theorem bsearch_eq_some {p : Bytes} {e : Pp2Type} :
    bsearch pp2Types p (pp2Types.length + 1) 0 pp2Types.length = some e ↔
      e ∈ pp2Types ∧ e.name = p := by
  refine ⟨bsearch_sound, ?_⟩
  rintro ⟨he, rfl⟩
  exact bsearch_pp2Types e he

theorem after0x_eq_some {p h : Bytes} : after0x p = some h ↔ p = ascii "0x" ++ h := by
  have e0x : ascii "0x" = [48, 120] := by decide
  rw [e0x]
  constructor
  · intro hp
    unfold after0x at hp
    split at hp
    · injection hp with hp
      rw [hp]
      rfl
    · cases hp
  · rintro rfl
    rfl

theorem after0x_eq_none {p : Bytes} : after0x p = none ↔ ¬ ascii "0x" <+: p := by
  constructor
  · rintro hp ⟨h, rfl⟩
    rw [after0x_eq_some.mpr rfl] at hp
    cases hp
  · intro hp
    cases ha : after0x p with
    | none => rfl
    | some h => exact absurd ⟨h, (after0x_eq_some.mp ha).symm⟩ hp

/-- No type of the table has a name that starts with `0x`. -/
theorem after0x_name : ∀ e ∈ pp2Types, after0x e.name = none := by
  decide

theorem tlvType_eq_ok {vsb p out : Bytes} :
    tlvType vsb p = .ok out ↔ ∃ ty, MeansType p ty ∧ out = vsb ++ [ty] := by
  rw [tlvType]
  cases ha : after0x p with
  | some h =>
    rw [bind_eq_ok]
    simp only [fatalIf_bind_eq_ok, decide_eq_false_iff_not, not_not, Except.ok.injEq,
      vtcHexToBin_eq_ok]
    constructor
    · rintro ⟨v, hv, hlen, rfl⟩
      obtain ⟨ty, rfl⟩ := List.length_eq_one_iff.mp hlen
      exact ⟨ty, .inl ⟨h, after0x_eq_some.mp ha, hv⟩, rfl⟩
    · rintro ⟨ty, ⟨h', rfl, hv⟩ | hmem, rfl⟩
      · rw [after0x_eq_some.mpr rfl] at ha
        injection ha with ha
        subst ha
        exact ⟨[ty], hv, rfl, rfl⟩
      · rw [after0x_name _ hmem] at ha
        cases ha
  | none =>
    have hnot : ∀ h, p ≠ ascii "0x" ++ h := by
      rintro h rfl
      exact after0x_eq_none.mp ha ⟨h, rfl⟩
    cases hb : bsearch pp2Types p (pp2Types.length + 1) 0 pp2Types.length with
    | none =>
      simp only [reduceCtorEq, false_iff]
      rintro ⟨ty, ⟨h, hp, -⟩ | hmem, -⟩
      · exact hnot h hp
      · rw [bsearch_eq_some.mpr ⟨hmem, rfl⟩] at hb
        cases hb
    | some e =>
      simp only [Except.ok.injEq]
      obtain ⟨he, rfl⟩ := bsearch_eq_some.mp hb
      constructor
      · rintro rfl
        exact ⟨e.type, .inr he, rfl⟩
      · rintro ⟨ty, ⟨h, hp, -⟩ | hmem, rfl⟩
        · exact absurd hp (hnot h)
        · rw [bsearch_eq_some.mpr ⟨hmem, rfl⟩] at hb
          injection hb with hb
          rw [← hb]

theorem tlvValue_eq_ok {p v : Bytes} : tlvValue p = .ok v ↔ MeansValue p v := by
  rw [tlvValue, MeansValue]
  cases ha : after0x p with
  | some h =>
    obtain rfl := after0x_eq_some.mp ha
    simp only [vtcHexToBin_eq_ok]
    constructor
    · exact fun hv => .inl ⟨h, rfl, hv⟩
    · rintro (⟨h', e, hv⟩ | ⟨hn, -⟩)
      · rwa [List.append_cancel_left e]
      · exact absurd ⟨h, rfl⟩ hn
  | none =>
    have hn := after0x_eq_none.mp ha
    simp only [Except.ok.injEq]
    constructor
    · rintro rfl
      exact .inr ⟨hn, rfl⟩
    · rintro (⟨h, rfl, -⟩ | ⟨-, rfl⟩)
      · exact absurd ⟨h, rfl⟩ hn
      · rfl

/-- Without delimiters the token is the whole text. -/
theorem strtok_no_delim {s v r : Bytes} : strtok [] s = some (v, r) ↔ s ≠ [] ∧ v = s ∧ r = [] := by
  rw [strtok_eq_some]
  constructor
  · rintro ⟨pad, tail, rfl, hpad, hv, -, htail⟩
    obtain rfl : pad = [] := List.eq_nil_iff_forall_not_mem.mpr fun c hc => by simpa using hpad c hc
    rcases htail with ⟨rfl, rfl⟩ | ⟨e, he, -⟩
    · simpa using hv
    · simp at he
  · rintro ⟨hs, rfl, rfl⟩
    exact ⟨[], [], by simp, by simp, hs, by simp, .inl ⟨rfl, rfl⟩⟩

/-- `vtc_proxy_tlv` appends the record that its text asks for; there is no other way for it to
return. -/
theorem vtcProxyTlv_eq_ok {vsb kv out : Bytes} :
    vtcProxyTlv vsb kv = .ok out ↔ ∃ t, AsksTlv kv t ∧ out = vsb ++ t.bytes := by
  constructor
  · intro h
    rw [vtcProxyTlv] at h
    cases hk : strtok [61] kv with
    | none => rw [hk] at h; cases h
    | some ps =>
      obtain ⟨p, save⟩ := ps
      rw [hk] at h
      obtain ⟨vsb1, ht, h⟩ := bind_eq_ok.mp h
      obtain ⟨ty, hty, rfl⟩ := tlvType_eq_ok.mp ht
      cases hv : strtok [] save with
      | none => rw [hv] at h; cases h
      | some vr =>
        obtain ⟨v, r⟩ := vr
        obtain ⟨hne, rfl, rfl⟩ := strtok_no_delim.mp hv
        rw [hv] at h
        obtain ⟨v2, hv2, h⟩ := bind_eq_ok.mp h
        obtain ⟨hlen, h⟩ := check_bind_eq_ok.mp h
        injection h with h
        subst h
        have hlen : v2.length ≤ 65535 := by simpa using hlen
        obtain ⟨pad, tail, hs, hpad, hp, hfree, htail⟩ := strtok_eq_some.mp hk
        rcases htail with ⟨rfl, rfl⟩ | ⟨e, he, rfl⟩
        · exact absurd rfl hne
        · obtain rfl : e = 61 := by simpa using he
          refine ⟨⟨ty, v2, by omega⟩, ⟨pad, p, v, hs, ?_, hp, ?_, hne, hty, tlvValue_eq_ok.mp hv2⟩,
            ?_⟩
          · exact fun c hc => by simpa using hpad c hc
          · exact fun hmem => by simpa using hfree 61 hmem
          · simp [Tlv.bytes]
  · rintro ⟨t, ⟨pad, p, v, rfl, hpad, hp, hfree, hne, hty, hval⟩, rfl⟩
    have hk : strtok [61] (pad ++ (p ++ 61 :: v)) = some (p, v) := by
      refine strtok_eq_some.mpr ⟨pad, 61 :: v, rfl, ?_, hp, ?_, .inr ⟨61, by simp, rfl⟩⟩
      · exact fun c hc => by simpa using hpad c hc
      · intro c hc
        have : c ≠ 61 := fun e => hfree (e ▸ hc)
        simpa using this
    have hlen : decide (t.value.length ≤ 65535) = true := by
      have := t.fits
      simp only [decide_eq_true_eq]
      omega
    rw [vtcProxyTlv, hk]
    simp only [tlvType_eq_ok.mpr ⟨_, hty, rfl⟩, ok_bind, strtok_no_delim.mpr ⟨hne, rfl, rfl⟩,
      tlvValue_eq_ok.mpr hval, hlen, check_true]
    simp [Tlv.bytes]

/-- The loop of `client_proxy` appends the records that the words of its text ask for. -/
theorem tlvLoop_eq_ok (save : Bytes) : ∀ {tlv out : Bytes}, tlvLoop save tlv = .ok out ↔
    ∃ ts, List.Forall₂ AsksTlv (words [32] save) ts ∧ out = tlv ++ tlvBytes ts := by
  -- By induction on the length of what `save` still points at.
  induction hn : save.length using Nat.strong_induction_on generalizing save with
  | _ n ih =>
    intro tlv out
    rw [tlvLoop]
    split
    · rename_i hk
      rw [words_of_strtok_none hk]
      simp [List.forall₂_nil_left_iff, eq_comm]
    · rename_i p save' hk
      have ih' := @ih save'.length (hn ▸ length_of_strtok hk) save' rfl
      rw [words_of_strtok hk, bind_eq_ok]
      constructor
      · rintro ⟨tlv1, h1, h2⟩
        obtain ⟨t, ht, rfl⟩ := vtcProxyTlv_eq_ok.mp h1
        obtain ⟨ts, hts, rfl⟩ := ih'.mp h2
        exact ⟨t :: ts, .cons ht hts, by simp⟩
      · rintro ⟨_, h, rfl⟩
        cases h with
        | cons ht hts =>
          exact ⟨_, vtcProxyTlv_eq_ok.mpr ⟨_, ht, rfl⟩, ih'.mpr ⟨_, hts, by simp⟩⟩

/-! ## What is sent -/

/-- The bytes `vpx_enc_addr` copies. -/
def addrAt : Proto → SuckAddr → Bytes
  | .inet6, s => (s.mem.drop 8).take 16
  | .inet, s => (s.mem.drop 4).take 4

/-- What follows the length field. -/
def sentBody (sac sas : SuckAddr) (tlv : Bytes) : Bytes :=
  addrAt sas.proto sac ++ (addrAt sas.proto sas ++ (vbe16enc sac.port.toNat ++
    (vbe16enc sas.port.toNat ++ tlv)))

/-- A preamble of version 2 in front of the records `tlv`. -/
def sent (sac sas : SuckAddr) (tlv : Bytes) : Bytes :=
  vpx2Sig ++ [0x21] ++ [(vpx2Family sas.proto).1] ++
    vbe16enc (tlv.length % 2 ^ 16 + (vpx2Family sas.proto).2) ++ sentBody sac sas tlv

/-- What the two assertions of `vtc_send_proxy` and `vpx_enc_addr` let through. -/
def Passes (sac sas : SuckAddr) (len : Nat) : Prop :=
  len % 2 ^ 16 ≤ 65499 ∧ ¬ (sas.proto = .inet6 ∧ sac.proto = .inet)

theorem vpx2Family_le (p : Proto) : (vpx2Family p).2 ≤ 36 := by
  cases p <;> simp [vpx2Family]

theorem proto_self (s : SuckAddr) : ¬ (s.proto = .inet6 ∧ s.proto = .inet) := by
  cases s <;> simp [SuckAddr.proto]

theorem vpxEncAddr_eq (vsb : Bytes) (s sas : SuckAddr) : vpxEncAddr vsb sas.proto s =
    if sas.proto = .inet6 ∧ s.proto = .inet then .error .assert
    else .ok (vsb ++ addrAt sas.proto s) := by
  cases s <;> cases sas <;> simp [vpxEncAddr, SuckAddr.proto, SuckAddr.suaLen, addrAt]

theorem vtcSendProxy_eq_ok {vtcpName : SuckAddr → Bytes × Bytes} {sac sas : SuckAddr}
    {tlv b : Bytes} : vtcSendProxy vtcpName 2 sac sas (some tlv) = .ok b ↔
      Passes sac sas tlv.length ∧ b = sent sac sas tlv := by
  have hself := proto_self sas
  have hfam := vpx2Family_le sas.proto
  simp only [vtcSendProxy, vpxPreamble, Option.getD_some, check_bind_eq_ok, Passes,
    if_neg (by decide : ¬ 2 = 1)]
  constructor
  · rintro ⟨-, hl, h⟩
    have hl : tlv.length % 2 ^ 16 ≤ 65499 := by simpa using hl
    obtain ⟨hd, hh, h⟩ := bind_eq_ok.mp h
    injection h with h
    subst h
    rw [vpx2, vpxEncAddr_eq] at hh
    by_cases hmix : sas.proto = .inet6 ∧ sac.proto = .inet
    · rw [if_pos hmix] at hh
      cases hh
    · rw [if_neg hmix, ok_bind, vpxEncAddr_eq, if_neg hself, ok_bind] at hh
      injection hh with hh
      refine ⟨⟨hl, hmix⟩, ?_⟩
      rw [← hh, Nat.mod_eq_of_lt (by omega)]
      simp [sent, sentBody, vpxEncPort]
  · rintro ⟨⟨hl, hmix⟩, rfl⟩
    refine ⟨rfl, by simpa using hl, ?_⟩
    rw [vpx2, vpxEncAddr_eq, if_neg hmix, ok_bind, vpxEncAddr_eq, if_neg hself, ok_bind, ok_bind,
      Nat.mod_eq_of_lt (by omega)]
    simp [sent, sentBody, vpxEncPort]

/-- What `client_proxy` writes for version 2: the preamble of what it was asked for, if the
assertions let it through. -/
theorem clientProxy_eq_ok {resolve : Bytes → Option SuckAddr}
    {vtcpName : SuckAddr → Bytes × Bytes} {spec b : Bytes} :
    clientProxy resolve vtcpName 2 spec = .ok b ↔
      ∃ q, Asked resolve spec q ∧ Passes q.client q.server (tlvBytes q.tlvs).length ∧
        b = sent q.client q.server (tlvBytes q.tlvs) := by
  rw [clientProxy]
  constructor
  · intro h
    cases hc : strtok [32] spec with
    | none => rw [hc] at h; cases h
    | some cs =>
      obtain ⟨c, save⟩ := cs
      simp only [hc] at h
      cases hrc : resolve c with
      | none => rw [hrc] at h; cases h
      | some sac =>
        simp only [hrc] at h
        cases hs : strtok [32] save with
        | none => rw [hs] at h; cases h
        | some ss =>
          obtain ⟨s, save2⟩ := ss
          simp only [hs] at h
          cases hrs : resolve s with
          | none => rw [hrs] at h; cases h
          | some sas =>
            simp only [hrs] at h
            obtain ⟨tlv, ht, h⟩ := bind_eq_ok.mp h
            obtain ⟨ts, hts, rfl⟩ := (tlvLoop_eq_ok save2).mp ht
            obtain ⟨hp, hb⟩ := vtcSendProxy_eq_ok.mp h
            refine ⟨⟨sac, sas, ts⟩, ⟨c, s, _, ?_, hrc, hrs, hts⟩, hp, hb⟩
            rw [words_of_strtok hc, words_of_strtok hs]
  · rintro ⟨⟨sac, sas, ts⟩, ⟨c, s, kvs, hw, hrc, hrs, hts⟩, hp, rfl⟩
    cases hc : strtok [32] spec with
    | none => rw [words_of_strtok_none hc] at hw; cases hw
    | some cs =>
      obtain ⟨c', save⟩ := cs
      rw [words_of_strtok hc] at hw
      injection hw with e hw
      subst e
      simp only [hrc]
      cases hs : strtok [32] save with
      | none => rw [words_of_strtok_none hs] at hw; cases hw
      | some ss =>
        obtain ⟨s', save2⟩ := ss
        rw [words_of_strtok hs] at hw
        injection hw with e hw
        subst e hw
        simp only [hrs]
        refine bind_eq_ok.mpr ⟨tlvBytes ts, (tlvLoop_eq_ok save2).mpr ⟨ts, hts, rfl⟩, ?_⟩
        exact vtcSendProxy_eq_ok.mpr ⟨hp, rfl⟩

/-! ## Reading it back -/

theorem takeN_append {n : Nat} (a : Octets n) (r : Bytes) : takeN n (a.val ++ r) = some (a, r) := by
  obtain ⟨a, rfl⟩ := a
  simp [takeN]

theorem takePort_append (p : UInt16) (r : Bytes) :
    takePort (vbe16enc p.toNat ++ r) = some (p, r) := by
  have hp := p.toNat_lt
  have hval : (UInt8.ofNat (p.toNat / 2 ^ 8)).toNat * 2 ^ 8 + (UInt8.ofNat p.toNat).toNat =
      p.toNat := by
    simp only [UInt8.toNat_ofNat']
    omega
  simp only [vbe16enc, List.cons_append, List.nil_append, takePort, hval, UInt16.ofNat_toNat]

theorem decodeBody_append {n : Nat} (endpoint : Octets n → UInt16 → Endpoint) (src dst : Octets n)
    (sp dp : UInt16) (ts : List Tlv) :
    decodeBody n endpoint (src.val ++ (dst.val ++ (vbe16enc sp.toNat ++
      (vbe16enc dp.toNat ++ tlvBytes ts)))) =
      some ⟨endpoint src sp, endpoint dst dp, ts⟩ := by
  simp [decodeBody, takeN_append, takePort_append, decodeTlvs_tlvBytes]

/-- A preamble is read up to the length it states. -/
theorem decodeV2_frame {l : Nat} (fam : UInt8) (body : Bytes) (h16 : l < 2 ^ 16)
    (hl : l ≤ body.length) :
    decodeV2 (vpx2Sig ++ [0x21] ++ [fam] ++ vbe16enc l ++ body) =
      (decodeFamily fam (body.take l)).map (·, body.drop l) := by
  have hsig : vpx2Sig ++ [0x21] = [13, 10, 13, 10, 0, 13, 10, 81, 85, 73, 84, 10, 0x21] := by
    decide
  have hlen : (UInt8.ofNat (l / 2 ^ 8)).toNat * 2 ^ 8 + (UInt8.ofNat l).toNat = l :=
    vbe16enc_halves h16
  have hdrop : (vpx2Sig ++ [0x21] ++ [fam] ++ vbe16enc l ++ body).drop 13 =
      fam :: UInt8.ofNat (l / 2 ^ 8) :: UInt8.ofNat l :: body := by
    rw [hsig]
    rfl
  rw [decodeV2, if_pos ⟨[fam] ++ vbe16enc l ++ body, by rw [hsig]; simp⟩, hdrop]
  simp only [hlen, if_pos hl]

@[simp] theorem addrAt_inet_sa4 (p : UInt16) (a : Octets 4) : addrAt .inet (.sa4 p a) = a.val := by
  obtain ⟨a, ha⟩ := a
  simp [addrAt, SuckAddr.mem, vbe16enc, ha]

@[simp] theorem addrAt_inet6_sa6 (p : UInt16) (f : Octets 4) (a : Octets 16) (c : Octets 4) :
    addrAt .inet6 (.sa6 p f a c) = a.val := by
  obtain ⟨f, hf⟩ := f
  obtain ⟨a, ha⟩ := a
  simp [addrAt, SuckAddr.mem, vbe16enc, hf, ha]

/-- Where a `sockaddr_in` has its address, a `sockaddr_in6` has its flow information. -/
@[simp] theorem addrAt_inet_sa6 (p : UInt16) (f : Octets 4) (a : Octets 16) (c : Octets 4) :
    addrAt .inet (.sa6 p f a c) = f.val := by
  obtain ⟨f, hf⟩ := f
  simp [addrAt, SuckAddr.mem, vbe16enc, hf]

theorem length_sentBody {sac sas : SuckAddr} (tlv : Bytes)
    (h : ¬ (sas.proto = .inet6 ∧ sac.proto = .inet)) :
    (sentBody sac sas tlv).length = tlv.length + (vpx2Family sas.proto).2 := by
  cases sas with
  | sa4 p a =>
    have ha := a.property
    cases sac with
    | sa4 p' a' =>
      have ha' := a'.property
      simp [sentBody, SuckAddr.proto, vpx2Family, ha, ha']
      omega
    | sa6 p' f' a' c' =>
      have hf' := f'.property
      simp [sentBody, SuckAddr.proto, vpx2Family, ha, hf']
      omega
  | sa6 p f a c =>
    have ha := a.property
    cases sac with
    | sa4 p' a' => exact absurd ⟨rfl, rfl⟩ h
    | sa6 p' f' a' c' =>
      have ha' := a'.property
      simp [sentBody, SuckAddr.proto, vpx2Family, ha, ha']
      omega

/-- The part of a preamble in front of its length field has 14 bytes. -/
theorem drop_head (fam : UInt8) (r : Bytes) : (vpx2Sig ++ [0x21] ++ [fam] ++ r).drop 14 = r :=
  List.drop_left' rfl

/-- The length field of what is sent. -/
theorem vbe16dec_sent {sac sas : SuckAddr} {tlv : Bytes} (h : tlv.length % 2 ^ 16 ≤ 65499) :
    vbe16dec ((sent sac sas tlv).drop 14) =
      .ok (tlv.length % 2 ^ 16 + (vpx2Family sas.proto).2) := by
  have hfam := vpx2Family_le sas.proto
  rw [sent, List.append_assoc _ (vbe16enc _), drop_head, vbe16dec_enc _ _ (by omega)]

theorem length_sent {sac sas : SuckAddr} (tlv : Bytes)
    (h : ¬ (sas.proto = .inet6 ∧ sac.proto = .inet)) :
    (sent sac sas tlv).length - 16 = tlv.length + (vpx2Family sas.proto).2 := by
  have hhead : (vpx2Sig ++ [0x21] ++ [(vpx2Family sas.proto).1]).length = 14 := rfl
  rw [sent, List.length_append, List.length_append, hhead, length_vbe16enc, length_sentBody tlv h]
  omega

/-- What is sent is read to its end, when the length is not cut. -/
theorem decodeV2_sent {sac sas : SuckAddr} {tlv : Bytes} (hp : Passes sac sas tlv.length)
    (h16 : tlv.length < 2 ^ 16) :
    decodeV2 (sent sac sas tlv) =
      (decodeFamily (vpx2Family sas.proto).1 (sentBody sac sas tlv)).map (·, []) := by
  have hfam := vpx2Family_le sas.proto
  have hlen := length_sentBody tlv hp.2
  have hl := hp.1
  rw [Nat.mod_eq_of_lt h16] at hl
  rw [sent, Nat.mod_eq_of_lt h16, ← hlen, decodeV2_frame _ _ (by omega) (le_refl _),
    List.take_length, List.drop_length]

theorem decodeFamily_inet (src dst : Octets 4) (sp dp : UInt16) (ts : List Tlv) :
    decodeFamily 0x11 (src.val ++ (dst.val ++ (vbe16enc sp.toNat ++
      (vbe16enc dp.toNat ++ tlvBytes ts)))) = some ⟨.inet src sp, .inet dst dp, ts⟩ := by
  rw [decodeFamily, if_pos rfl, decodeBody_append]

theorem decodeFamily_inet6 (src dst : Octets 16) (sp dp : UInt16) (ts : List Tlv) :
    decodeFamily 0x21 (src.val ++ (dst.val ++ (vbe16enc sp.toNat ++
      (vbe16enc dp.toNat ++ tlvBytes ts)))) = some ⟨.inet6 src sp, .inet6 dst dp, ts⟩ := by
  rw [decodeFamily, if_neg (by decide), if_pos rfl, decodeBody_append]

/-- Addresses of one family are read back. -/
theorem decodeFamily_same {q : Request} (h : q.client.proto = q.server.proto) :
    decodeFamily (vpx2Family q.server.proto).1 (sentBody q.client q.server (tlvBytes q.tlvs)) =
      some q.header := by
  obtain ⟨client, server, ts⟩ := q
  cases client with
  | sa4 =>
    cases server with
    | sa4 => simp [sentBody, SuckAddr.proto, vpx2Family, decodeFamily_inet, Request.header,
        SuckAddr.endpoint, SuckAddr.port]
    | sa6 => cases h
  | sa6 =>
    cases server with
    | sa4 => cases h
    | sa6 => simp [sentBody, SuckAddr.proto, vpx2Family, decodeFamily_inet6, Request.header,
        SuckAddr.endpoint, SuckAddr.port]

/-- With a server of the older family, what is read back as the client is of that family too. -/
theorem decodeFamily_inet_client {sac : SuckAddr} {p : UInt16} {a : Octets 4} {ts : List Tlv}
    {h : Header} (hd : decodeFamily (vpx2Family (SuckAddr.sa4 p a).proto).1
      (sentBody sac (.sa4 p a) (tlvBytes ts)) = some h) : ∃ src sp, h.client = .inet src sp := by
  cases sac with
  | sa4 p' a' =>
    simp only [sentBody, SuckAddr.proto, vpx2Family, addrAt_inet_sa4, SuckAddr.port,
      decodeFamily_inet] at hd
    injection hd with hd
    exact ⟨a', p', by rw [← hd]⟩
  | sa6 p' f' a' c' =>
    simp only [sentBody, SuckAddr.proto, vpx2Family, addrAt_inet_sa4, addrAt_inet_sa6,
      SuckAddr.port, decodeFamily_inet] at hd
    injection hd with hd
    exact ⟨f', p', by rw [← hd]⟩

theorem Asked.client_eq {resolve : Bytes → Option SuckAddr} {spec : Bytes} {q q' : Request}
    (h : Asked resolve spec q) (h' : Asked resolve spec q') : q.client = q'.client := by
  obtain ⟨c, s, kvs, hw, hc, -⟩ := h
  obtain ⟨c', s', kvs', hw', hc', -⟩ := h'
  rw [hw] at hw'
  injection hw' with e
  subst e
  rw [hc] at hc'
  injection hc'

/-- What `client_proxy` sends for `spec`, if it sends anything, is a preamble that says what `spec`
asks for and that states how long it is. -/
def Described (resolve : Bytes → Option SuckAddr) (vtcpName : SuckAddr → Bytes × Bytes)
    (spec : Bytes) : Prop :=
  ∀ b, clientProxy resolve vtcpName 2 spec = .ok b →
    ∃ q, Asked resolve spec q ∧ decodeV2 b = some (q.header, []) ∧
      vbe16dec (b.drop 14) = .ok (b.length - 16)

/-- A resolver that knows two addresses. -/
def resolveTwo (t : Bytes) : Option SuckAddr :=
  if t = ascii "1.2.3.4:80" then some (.sa4 80 ⟨[1, 2, 3, 4], rfl⟩)
  else if t = ascii "[::1]:80" then
    some (.sa6 80 ⟨[0, 0, 0, 0], rfl⟩ ⟨[0, 0, 0, 0, 0, 0, 0, 0, 0, 0, 0, 0, 0, 0, 0, 1], rfl⟩
      ⟨[0, 0, 0, 0], rfl⟩)
  else none

theorem vtcProxyTlv_alpn : vtcProxyTlv [] (ascii "alpn=h2") = .ok [1, 0, 2, 104, 50] := by
  decide

/-- The preamble says what was asked for exactly when the two addresses are of one family and the
length of the records is a 16-bit number, or when an assertion stops the client: for a client of
the older family and a server of the newer, or when the low 16 bits of the length leave no room
for the addresses. -/
theorem preamble_described_iff (resolve : Bytes → Option SuckAddr)
    (vtcpName : SuckAddr → Bytes × Bytes) (spec : Bytes) :
    Described resolve vtcpName spec ↔
      ∀ q, Asked resolve spec q →
        (q.client.proto = q.server.proto ∧ (tlvBytes q.tlvs).length < 2 ^ 16) ∨
        (q.client.proto = .inet ∧ q.server.proto = .inet6) ∨
        65499 < (tlvBytes q.tlvs).length % 2 ^ 16 := by
  constructor
  · intro h q hq
    by_contra hnot
    push Not at hnot
    obtain ⟨hclear, hfam, hmod⟩ := hnot
    have hp : Passes q.client q.server (tlvBytes q.tlvs).length :=
      ⟨hmod, fun hm => hfam hm.2 hm.1⟩
    obtain ⟨q', hq', hd, hl⟩ := h _ (clientProxy_eq_ok.mpr ⟨q, hq, hp, rfl⟩)
    rw [vbe16dec_sent hp.1, length_sent _ hp.2] at hl
    injection hl with hl
    have h16 : (tlvBytes q.tlvs).length < 2 ^ 16 := by omega
    have hne : q.client.proto ≠ q.server.proto := fun e => absurd (hclear e) (by omega)
    -- What is left is a client of the newer family and a server of the older.
    rw [decodeV2_sent hp h16, Option.map_eq_some_iff] at hd
    obtain ⟨h', hd, he⟩ := hd
    injection he with he
    subst he
    obtain ⟨client, server, ts⟩ := q
    cases server with
    | sa6 =>
      cases client with
      | sa4 => exact hp.2 ⟨rfl, rfl⟩
      | sa6 => exact hne rfl
    | sa4 =>
      cases client with
      | sa4 => exact hne rfl
      | sa6 =>
        obtain ⟨src, sp, hc⟩ := decodeFamily_inet_client hd
        rw [Request.header, ← Asked.client_eq hq hq'] at hc
        cases hc
  · intro h b hb
    obtain ⟨q, hq, hp, rfl⟩ := clientProxy_eq_ok.mp hb
    rcases h q hq with ⟨hfam, h16⟩ | hm | hmod
    · refine ⟨q, hq, ?_, ?_⟩
      · rw [decodeV2_sent hp h16, decodeFamily_same hfam]
        rfl
      · rw [vbe16dec_sent hp.1, length_sent _ hp.2, Nat.mod_eq_of_lt h16]
    · exact absurd ⟨hm.2, hm.1⟩ hp.2
    · exact absurd hp.1 (by omega)

theorem preamble_described_alpn :
    clientProxy resolveTwo (fun _ => ([], [])) 2 (ascii "1.2.3.4:80 1.2.3.4:80 alpn=h2") =
      .ok (vpx2Sig ++ [0x21, 0x11, 0, 17, 1, 2, 3, 4, 1, 2, 3, 4, 0, 80, 0, 80, 1, 0, 2, 104, 50]) ∧
    Described resolveTwo (fun _ => ([], [])) (ascii "1.2.3.4:80 1.2.3.4:80 alpn=h2") := by
  have hw : words [32] (ascii "1.2.3.4:80 1.2.3.4:80 alpn=h2") =
      [ascii "1.2.3.4:80", ascii "1.2.3.4:80", ascii "alpn=h2"] := by decide
  constructor
  · obtain ⟨t, ht, hb⟩ := vtcProxyTlv_eq_ok.mp vtcProxyTlv_alpn
    have htlv : tlvBytes [t] = [1, 0, 2, 104, 50] := by simpa [tlvBytes] using hb.symm
    refine clientProxy_eq_ok.mpr
      ⟨⟨.sa4 80 ⟨[1, 2, 3, 4], rfl⟩, .sa4 80 ⟨[1, 2, 3, 4], rfl⟩, [t]⟩,
        ⟨_, _, _, hw, rfl, rfl, .cons ht .nil⟩, ?_, ?_⟩
    · rw [htlv]
      exact ⟨by decide, by simp [SuckAddr.proto]⟩
    · rw [htlv]
      show _ = sent (.sa4 80 ⟨[1, 2, 3, 4], rfl⟩) (.sa4 80 ⟨[1, 2, 3, 4], rfl⟩) _
      decide
  · refine (preamble_described_iff _ _ _).mpr ?_
    rintro ⟨client, server, ts⟩ ⟨c, s, kvs, hw', hc, hs, hts⟩
    rw [hw] at hw'
    obtain ⟨rfl, rfl, rfl⟩ : c = ascii "1.2.3.4:80" ∧ s = ascii "1.2.3.4:80" ∧
        kvs = [ascii "alpn=h2"] := by
      simpa [eq_comm] using hw'
    rw [hc] at hs
    injection hs with hs
    cases hts with
    | @cons _ t _ _ ht hnil =>
      cases hnil
      have hb : vtcProxyTlv [] (ascii "alpn=h2") = .ok ([] ++ t.bytes) :=
        vtcProxyTlv_eq_ok.mpr ⟨t, ht, rfl⟩
      rw [vtcProxyTlv_alpn] at hb
      injection hb with hb
      refine .inl ⟨by rw [hs], ?_⟩
      simp only [tlvBytes_cons, tlvBytes_nil, List.append_nil]
      rw [List.nil_append] at hb
      rw [← hb]
      decide

/-- For an IPv6 client and an IPv4 server, the client is announced as `0.0.0.0`. -/
theorem flowinfo_sent_as_address :
    clientProxy resolveTwo (fun _ => ([], [])) 2 (ascii "[::1]:80 1.2.3.4:80") =
      .ok (vpx2Sig ++ [0x21, 0x11, 0, 12, 0, 0, 0, 0, 1, 2, 3, 4, 0, 80, 0, 80]) ∧
    ¬ Described resolveTwo (fun _ => ([], [])) (ascii "[::1]:80 1.2.3.4:80") := by
  have hw : words [32] (ascii "[::1]:80 1.2.3.4:80") =
      [ascii "[::1]:80", ascii "1.2.3.4:80"] := by decide
  let q : Request := ⟨.sa6 80 ⟨[0, 0, 0, 0], rfl⟩
    ⟨[0, 0, 0, 0, 0, 0, 0, 0, 0, 0, 0, 0, 0, 0, 0, 1], rfl⟩ ⟨[0, 0, 0, 0], rfl⟩,
    .sa4 80 ⟨[1, 2, 3, 4], rfl⟩, []⟩
  have hq : Asked resolveTwo (ascii "[::1]:80 1.2.3.4:80") q := ⟨_, _, _, hw, rfl, rfl, .nil⟩
  have hsent : clientProxy resolveTwo (fun _ => ([], [])) 2 (ascii "[::1]:80 1.2.3.4:80") =
      .ok (vpx2Sig ++ [0x21, 0x11, 0, 12, 0, 0, 0, 0, 1, 2, 3, 4, 0, 80, 0, 80]) :=
    clientProxy_eq_ok.mpr ⟨q, hq, ⟨by decide, by decide⟩, by decide⟩
  refine ⟨hsent, fun h => ?_⟩
  obtain ⟨q', hq', hd, -⟩ := h _ hsent
  have hread : decodeV2 (vpx2Sig ++ [0x21, 0x11, 0, 12, 0, 0, 0, 0, 1, 2, 3, 4, 0, 80, 0, 80]) =
      some (⟨.inet ⟨[0, 0, 0, 0], rfl⟩ 80, .inet ⟨[1, 2, 3, 4], rfl⟩ 80, []⟩, []) := by
    decide
  rw [hread, Request.header, ← Asked.client_eq hq hq'] at hd
  simp [q, SuckAddr.endpoint] at hd

end VTest.Proxy
