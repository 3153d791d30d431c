import VTest.Lib.Bytes

/-!
# VTest.Lib.Tlv

Records of a type byte, a 16-bit big-endian length and a value, one after the other. A value that
the length cannot express is not a record.

* `decodeTlvs_tlvBytes`: a list of records reads back from its bytes.
-/

namespace VTest

structure Tlv where
  type : UInt8
  value : Bytes
  fits : value.length < 2 ^ 16
  deriving DecidableEq

def Tlv.bytes (t : Tlv) : Bytes := t.type :: (vbe16enc t.value.length ++ t.value)

def tlvBytes (ts : List Tlv) : Bytes := ts.flatMap Tlv.bytes

@[simp] theorem tlvBytes_nil : tlvBytes [] = [] := rfl

@[simp] theorem tlvBytes_cons (t : Tlv) (ts : List Tlv) :
    tlvBytes (t :: ts) = t.bytes ++ tlvBytes ts := rfl

theorem Tlv.length_bytes (t : Tlv) : t.bytes.length = 3 + t.value.length := by
  simp [Tlv.bytes]
  omega

theorem length_le_tlvBytes (ts : List Tlv) : ts.length ≤ (tlvBytes ts).length := by
  induction ts with
  | nil => simp
  | cons t ts ih =>
    rw [tlvBytes_cons, List.length_append, t.length_bytes, List.length_cons]
    omega

/-- A value cut out by a 16-bit length. -/
def cutTlv (type hi lo : UInt8) (r : Bytes) : Tlv where
  type := type
  value := r.take (hi.toNat * 256 + lo.toNat)
  fits := by
    have h := hi.toNat_lt
    have l := lo.toNat_lt
    rw [List.length_take]
    omega

def decodeTlvsGo : Nat → Bytes → Option (List Tlv)
  | _, [] => some []
  | n + 1, type :: hi :: lo :: r =>
    if hi.toNat * 256 + lo.toNat ≤ r.length then
      (decodeTlvsGo n (r.drop (hi.toNat * 256 + lo.toNat))).map (cutTlv type hi lo r :: ·)
    else none
  | _, _ => none

/-- The records that take up the bytes `b` entirely. There are no more of them than bytes. -/
def decodeTlvs (b : Bytes) : Option (List Tlv) := decodeTlvsGo b.length b

theorem vbe16enc_halves {u : Nat} (h : u < 2 ^ 16) :
    (UInt8.ofNat (u / 256)).toNat * 256 + (UInt8.ofNat u).toNat = u := by
  simp only [UInt8.toNat_ofNat']
  omega

theorem decodeTlvsGo_bytes (t : Tlv) (n : Nat) (r : Bytes) :
    decodeTlvsGo (n + 1) (t.bytes ++ r) = (decodeTlvsGo n r).map (t :: ·) := by
  obtain ⟨type, value, fits⟩ := t
  have hlen := vbe16enc_halves fits
  show decodeTlvsGo (n + 1) (type :: UInt8.ofNat (value.length / 256) ::
    UInt8.ofNat value.length :: (value ++ r)) = _
  rw [decodeTlvsGo, if_pos (by rw [hlen]; simp)]
  simp only [cutTlv, hlen, List.drop_left, List.take_left]

/-- A list of records reads back from its bytes. -/
theorem decodeTlvs_tlvBytes (ts : List Tlv) : decodeTlvs (tlvBytes ts) = some ts := by
  -- The fuel is the number of bytes; any number that the records do not exceed will do.
  have general : ∀ n, ts.length ≤ n → decodeTlvsGo n (tlvBytes ts) = some ts := by
    induction ts with
    | nil => intro n _; rw [tlvBytes_nil, decodeTlvsGo]
    | cons t ts ih =>
      intro n hn
      obtain ⟨n, rfl⟩ : ∃ m, n = m + 1 := ⟨n - 1, by simp at hn; omega⟩
      rw [tlvBytes_cons, decodeTlvsGo_bytes, ih n (by simp at hn; omega)]
      rfl
  exact general _ (length_le_tlvBytes ts)

end VTest
