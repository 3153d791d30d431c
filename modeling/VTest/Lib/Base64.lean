import VTest.Lib.Bytes

/-!
# VTest.Lib.Base64

The base64url encoding of RFC 4648 without padding characters, and numbers in base 64.

* `base64Val ds`: the number that the digits `ds` spell, the highest first.
* `base64url_six`: six bytes are eight digits, which spell the same number.
-/

namespace VTest

/-- The character of a digit. -/
def base64Char (d : Nat) : UInt8 :=
  UInt8.ofNat (if d < 26 then 65 + d else if d < 52 then 71 + d else if d < 62 then d - 4
    else if d = 62 then 45 else 95)

def base64Alphabet : List UInt8 := (List.range 64).map base64Char

/-- The text of a string of bytes: four characters for three bytes, and two or three for what is
left. -/
def base64url : Bytes → Bytes
  | a :: b :: c :: r =>
    let n := a.toNat * 2 ^ 16 + b.toNat * 2 ^ 8 + c.toNat
    [n / 2 ^ 18, n / 2 ^ 12 % 64, n / 2 ^ 6 % 64, n % 64].map base64Char ++ base64url r
  | [a, b] =>
    let n := (a.toNat * 2 ^ 8 + b.toNat) * 4
    [n / 2 ^ 12, n / 2 ^ 6 % 64, n % 64].map base64Char
  | [a] =>
    let n := a.toNat * 16
    [n / 2 ^ 6, n % 64].map base64Char
  | [] => []

def base64Val : List Nat → Nat
  | [] => 0
  | d :: ds => d * 2 ^ (6 * ds.length) + base64Val ds

theorem base64Val_append (ds es : List Nat) :
    base64Val (ds ++ es) = base64Val ds * 2 ^ (6 * es.length) + base64Val es := by
  induction ds with
  | nil => simp [base64Val]
  | cons d ds ih =>
    rw [List.cons_append, base64Val, base64Val, ih, List.length_append, Nat.mul_add, Nat.pow_add]
    ring

/-- The digits of a number of 24 bits. -/
theorem base64_digits {n : Nat} (h : n < 2 ^ 24) :
    (∀ d ∈ [n / 2 ^ 18, n / 2 ^ 12 % 64, n / 2 ^ 6 % 64, n % 64], d < 64) ∧
      base64Val [n / 2 ^ 18, n / 2 ^ 12 % 64, n / 2 ^ 6 % 64, n % 64] = n := by
  constructor
  · simp only [List.mem_cons, List.not_mem_nil, or_false]
    rintro x (rfl | rfl | rfl | rfl) <;> omega
  · simp only [base64Val, List.length_cons, List.length_nil]
    omega

/-- Three bytes in front of others. -/
theorem base64url_three (a b c : UInt8) (r : Bytes) : ∃ ds : List Nat,
    ds.length = 4 ∧ (∀ d ∈ ds, d < 64) ∧
    base64Val ds = a.toNat * 2 ^ 16 + b.toNat * 2 ^ 8 + c.toNat ∧
    base64url (a :: b :: c :: r) = ds.map base64Char ++ base64url r := by
  have ha := a.toNat_lt
  have hb := b.toNat_lt
  have hc := c.toNat_lt
  obtain ⟨hlt, hval⟩ := @base64_digits (a.toNat * 2 ^ 16 + b.toNat * 2 ^ 8 + c.toNat) (by omega)
  exact ⟨_, rfl, hlt, hval, rfl⟩

/-- Six bytes in front of others. -/
theorem base64url_six (a b c d e f : UInt8) (r : Bytes) : ∃ ds : List Nat,
    ds.length = 8 ∧ (∀ d ∈ ds, d < 64) ∧
    base64Val ds = (a.toNat * 2 ^ 16 + b.toNat * 2 ^ 8 + c.toNat) * 2 ^ 24 +
      (d.toNat * 2 ^ 16 + e.toNat * 2 ^ 8 + f.toNat) ∧
    base64url (a :: b :: c :: d :: e :: f :: r) = ds.map base64Char ++ base64url r := by
  obtain ⟨ds, hlen, hlt, hval, htext⟩ := base64url_three a b c (d :: e :: f :: r)
  obtain ⟨es, hlen', hlt', hval', htext'⟩ := base64url_three d e f r
  refine ⟨ds ++ es, by rw [List.length_append, hlen, hlen'], ?_, ?_, ?_⟩
  · exact List.forall_mem_append.mpr ⟨hlt, hlt'⟩
  · rw [base64Val_append, hval, hval', hlen']
  · rw [htext, htext', List.map_append, List.append_assoc]

end VTest
