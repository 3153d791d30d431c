import VTest.Lib.Text

/-!
# VTest.Proxy.Send

The PROXY preamble a client writes in front of its first request: `client_proxy`
(`vtc_client.c`), `vtc_proxy_tlv` and `vtc_send_proxy` (`vtc_proxy.c`), `vtc_hex_to_bin`
(`vtc_subr.c`), and the `struct suckaddr` accessors they use (`vsa.c`).

Two library calls are parameters: `resolve` is `VSS_ResolveOne`, `vtcpName` is `VTCP_name`. The
result of a function is what it has written when every `write` succeeds; the NUL that ends a text is
the end of its list.
-/

namespace VTest.Proxy

open VTest

abbrev Octets (n : Nat) := { b : Bytes // b.length = n }

/-! ## Addresses -/

inductive Proto where
  | inet
  | inet6
  deriving DecidableEq, Repr

/-- `struct suckaddr`: the union holds a `sockaddr_in` or a `sockaddr_in6`. Ports are numbers here
and network order in memory. -/
inductive SuckAddr where
  | sa4 (sinPort : UInt16) (sinAddr : Octets 4)
  | sa6 (sin6Port : UInt16) (sin6Flowinfo : Octets 4) (sin6Addr : Octets 16)
      (sin6ScopeId : Octets 4)
  deriving DecidableEq

namespace SuckAddr

/-- `VSA_Get_Proto`. -/
def proto : SuckAddr → Proto
  | sa4 .. => .inet
  | sa6 .. => .inet6

/-- The bytes of the union, from its start: family, port, and what each family has then. A
`sockaddr_in` is filled up with eight NULs. -/
def mem : SuckAddr → Bytes
  | sa4 port addr => [2, 0] ++ vbe16enc port.toNat ++ addr.val ++ List.replicate 8 0
  | sa6 port flow addr scope => [10, 0] ++ vbe16enc port.toNat ++ flow.val ++ addr.val ++ scope.val

/-- `sua_len`, which `VSA_Get_Sockaddr` returns through `slp`. -/
def suaLen : SuckAddr → Nat
  | sa4 .. => 16
  | sa6 .. => 28

/-- `VSA_Port`. -/
def port : SuckAddr → UInt16
  | sa4 p _ => p
  | sa6 p _ _ _ => p

end SuckAddr

/-! ## Records -/

/-- The digit `c` stands for, as the three branches of `vtc_hex_to_bin` have it. -/
def hexDigit (c : UInt8) : Res Nat :=
  if 48 ≤ c ∧ c ≤ 57 then .ok (c.toNat - 48)
  else if 65 ≤ c ∧ c ≤ 70 then .ok (c.toNat - 55)
  else if 97 ≤ c ∧ c ≤ 102 then .ok (c.toNat - 87)
  else .error .fatal

/-- `vct_issp(c) || c == '\n'`. -/
def hexBlank (c : UInt8) : Bool := c = 9 || c = 32 || c = 10

/-- The loop of `vtc_hex_to_bin`, and what follows it. -/
def hexLoop : Bytes → (sh b : Nat) → (vsb : Bytes) → Res Bytes
  | [], sh, b, vsb => .ok (if sh ≠ 4 then vsb ++ [UInt8.ofNat b] else vsb)
  | c :: arg, sh, b, vsb =>
    if hexBlank c then hexLoop arg sh b vsb
    else do
      let d ← hexDigit c
      let b := b ||| (d <<< sh)
      if 4 - sh = 4 then hexLoop arg 4 0 (vsb ++ [UInt8.ofNat b]) else hexLoop arg (4 - sh) b vsb

def vtcHexToBin (arg : Bytes) : Res Bytes := hexLoop arg 4 0 []

structure Pp2Type where
  name : Bytes
  type : UInt8
  deriving DecidableEq

/-- `pp2_types`. -/
def pp2Types : List Pp2Type :=
  [⟨ascii "alpn", 0x01⟩, ⟨ascii "authority", 0x02⟩, ⟨ascii "crc32c", 0x03⟩, ⟨ascii "netns", 0x30⟩,
    ⟨ascii "noop", 0x04⟩, ⟨ascii "unique_id", 0x05⟩]

/-- `strcmp`. -/
def strcmp : Bytes → Bytes → Ordering
  | [], [] => .eq
  | [], _ :: _ => .lt
  | _ :: _, [] => .gt
  | a :: s, b :: t => (compare a b).then (strcmp s t)

/-- `bsearch` for the name `p` among the entries `lo ≤ i < hi` of a table. -/
def bsearch (tbl : List Pp2Type) (p : Bytes) : (fuel lo hi : Nat) → Option Pp2Type
  | 0, _, _ => none
  | fuel + 1, lo, hi =>
    if lo < hi then
      match tbl[(lo + hi) / 2]? with
      | none => none
      | some e =>
        match strcmp p e.name with
        | .lt => bsearch tbl p fuel lo ((lo + hi) / 2)
        | .gt => bsearch tbl p fuel ((lo + hi) / 2 + 1) hi
        | .eq => some e
    else none

/-- `p[0] == '0' && p[1] == 'x'`, and `p + 2`. -/
def after0x : Bytes → Option Bytes
  | 48 :: 120 :: r => some r
  | _ => none

/-- The type of a record, appended to `vsb`. -/
def tlvType (vsb p : Bytes) : Res Bytes :=
  match after0x p with
  | some h => do
    let vsb2 ← vtcHexToBin h
    fatalIf (vsb2.length ≠ 1)
    .ok (vsb ++ vsb2)
  | none =>
    match bsearch pp2Types p (pp2Types.length + 1) 0 pp2Types.length with
    | none => .error .fatal
    | some pp2 => .ok (vsb ++ [pp2.type])

/-- The value of a record. -/
def tlvValue (p : Bytes) : Res Bytes :=
  match after0x p with
  | some h => vtcHexToBin h
  | none => .ok p

/-- `vtc_proxy_tlv`: the record that the text `kva` asks for, appended to `vsb`. -/
def vtcProxyTlv (vsb kva : Bytes) : Res Bytes :=
  match strtok [61] kva with
  | none => .error .assert
  | some (p, save) => do
    let vsb ← tlvType vsb p
    match strtok [] save with
    | none => .error .fatal
    | some (v, _) => do
      let vsb2 ← tlvValue v
      check (vsb2.length ≤ 65535)
      .ok (vsb ++ vbe16enc vsb2.length ++ vsb2)

/-! ## The preamble -/

/-- `vpx_enc_addr`. The address is read where a `sockaddr` of the family `proto` has it. -/
def vpxEncAddr (vsb : Bytes) (proto : Proto) (s : SuckAddr) : Res Bytes :=
  match proto with
  | .inet6 => do
    check (28 ≤ s.suaLen)
    .ok (vsb ++ (s.mem.drop 8).take 16)
  | .inet => do
    check (16 ≤ s.suaLen)
    .ok (vsb ++ (s.mem.drop 4).take 4)

/-- `vpx_enc_port`. -/
def vpxEncPort (vsb : Bytes) (s : SuckAddr) : Bytes := vsb ++ vbe16enc s.port.toNat

def vpx1Sig : Bytes := ascii "PROXY"

def vpx2Sig : Bytes := [13, 10, 13, 10, 0, 13, 10] ++ ascii "QUIT" ++ [10]

/-- The branch of `vtc_send_proxy` for version 1. -/
def vpx1 (vtcpName : SuckAddr → Bytes × Bytes) (sac sas : SuckAddr) : Bytes :=
  let (hc, pc) := vtcpName sac
  let (hs, ps) := vtcpName sas
  vpx1Sig ++ (match sas.proto with | .inet6 => ascii " TCP6 " | .inet => ascii " TCP4 ") ++
    hc ++ [32] ++ hs ++ [32] ++ pc ++ [32] ++ ps ++ [13, 10]

/-- The family byte of version 2, and how much its addresses and ports take. -/
def vpx2Family : Proto → UInt8 × Nat
  | .inet6 => (0x21, 0x24)
  | .inet => (0x11, 0x0c)

/-- The branch of `vtc_send_proxy` for version 2; `l` is a `uint16_t`. -/
def vpx2 (sac sas : SuckAddr) (l : Nat) : Res Bytes := do
  let fam := vpx2Family sas.proto
  let l := (l + fam.2) % 2 ^ 16
  let vsb := vpx2Sig ++ [0x21] ++ [fam.1] ++ vbe16enc l
  let vsb ← vpxEncAddr vsb sas.proto sac
  let vsb ← vpxEncAddr vsb sas.proto sas
  .ok (vpxEncPort (vpxEncPort vsb sac) sas)

/-- The preamble without its records. -/
def vpxPreamble (vtcpName : SuckAddr → Bytes × Bytes) (version : Nat) (sac sas : SuckAddr)
    (l : Nat) : Res Bytes :=
  if version = 1 then .ok (vpx1 vtcpName sac sas)
  else vpx2 sac sas l

/-- `vtc_send_proxy`: the bytes it writes to `fd`. -/
def vtcSendProxy (vtcpName : SuckAddr → Bytes × Bytes) (version : Nat) (sac sas : SuckAddr)
    (tlv : Option Bytes) : Res Bytes := do
  check (version = 1 || version = 2)
  -- `uint16_t l` takes the low bits of `VSB_len(tlv)`
  let l := (tlv.getD []).length % 2 ^ 16
  check (l ≤ 65535 - 0x24)
  let vsb ← vpxPreamble vtcpName version sac sas l
  .ok (vsb ++ tlv.getD [])

/-- The loop of `client_proxy` over the records. -/
def tlvLoop (save tlv : Bytes) : Res Bytes :=
  match _ : strtok [32] save with
  | none => .ok tlv
  | some (p, save') => do
    let tlv ← vtcProxyTlv tlv p
    tlvLoop save' tlv
termination_by save.length
decreasing_by exact length_of_strtok (by assumption)

/-- `client_proxy`: the bytes it writes to `fd`. -/
def clientProxy (resolve : Bytes → Option SuckAddr) (vtcpName : SuckAddr → Bytes × Bytes)
    (version : Nat) (spec : Bytes) : Res Bytes :=
  match strtok [32] spec with
  | none => .error .assert
  | some (c, save) =>
    match resolve c with
    | none => .error .fatal
    | some sac =>
      match strtok [32] save with
      | none => .error .assert
      | some (s, save) =>
        match resolve s with
        | none => .error .fatal
        | some sas => do
          let tlv ← tlvLoop save []
          vtcSendProxy vtcpName version sac sas (some tlv)

end VTest.Proxy
