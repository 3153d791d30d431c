import VTest.Lib.Bytes

/-!
# VTest.Lib.Bits

Bit strings, the highest bit first, and the 64-bit word that programs collect them in.

* `ofBits` and `toBits n` go between bit strings and numbers; `bytesBits` spells out bytes.
* `Packed pack held`: the word `pack` holds the bits `held` at its upper end and zeros below.
  `Packed.push` adds bits, `Packed.drop` shifts bits out and `Packed.top` reads them.
-/

namespace VTest

def ofBits : List Bool → Nat
  | [] => 0
  | b :: l => b.toNat * 2 ^ l.length + ofBits l

def toBits : Nat → Nat → List Bool
  | 0, _ => []
  | n + 1, v => v.testBit n :: toBits n v

@[simp] theorem length_toBits (n v : Nat) : (toBits n v).length = n := by
  induction n with
  | zero => rfl
  | succ n ih => rw [toBits, List.length_cons, ih]

theorem ofBits_lt (l : List Bool) : ofBits l < 2 ^ l.length := by
  induction l with
  | nil => exact Nat.one_pos
  | cons b l ih =>
    have hb : b.toNat * 2 ^ l.length ≤ 2 ^ l.length := by
      have := Nat.mul_le_mul_right (2 ^ l.length) b.toNat_le
      omega
    rw [ofBits, List.length_cons, Nat.pow_succ]
    omega

theorem ofBits_append (a b : List Bool) :
    ofBits (a ++ b) = ofBits a * 2 ^ b.length + ofBits b := by
  induction a with
  | nil => simp [ofBits]
  | cons x a ih =>
    rw [List.cons_append, ofBits, ofBits, ih, List.length_append, Nat.pow_add]
    ring

@[simp] theorem ofBits_replicate_false (n : Nat) : ofBits (List.replicate n false) = 0 := by
  induction n with
  | zero => rfl
  | succ n ih => simp [List.replicate_succ, ofBits, ih]

theorem ofBits_replicate_true (n : Nat) : ofBits (List.replicate n true) + 1 = 2 ^ n := by
  induction n with
  | zero => rfl
  | succ n ih =>
    rw [List.replicate_succ, ofBits, List.length_replicate, Bool.toNat_true, Nat.pow_succ]
    omega

theorem ofBits_toBits (n v : Nat) : ofBits (toBits n v) = v % 2 ^ n := by
  induction n with
  | zero => simp [toBits, ofBits, Nat.mod_one]
  | succ n ih =>
    rw [toBits, ofBits, length_toBits, ih, Nat.toNat_testBit, Nat.pow_succ, Nat.mod_mul,
      Nat.mul_comm, Nat.add_comm]

theorem ofBits_inj {a b : List Bool} (hl : a.length = b.length) (h : ofBits a = ofBits b) :
    a = b := by
  induction a generalizing b with
  | nil => exact (List.length_eq_zero_iff.mp hl.symm).symm
  | cons x a ih =>
    obtain ⟨y, b, rfl⟩ := List.exists_cons_of_length_eq_add_one hl.symm
    have hab : a.length = b.length := by simpa using hl
    have ha := ofBits_lt a
    have hb := ofBits_lt b
    rw [ofBits, ofBits, hab] at h
    rw [hab] at ha
    cases x <;> cases y <;> simp only [Bool.toNat_true, Bool.toNat_false] at h
    · rw [ih hab (by omega)]
    · omega
    · omega
    · rw [ih hab (by omega)]

theorem toBits_ofBits (l : List Bool) : toBits l.length (ofBits l) = l := by
  refine ofBits_inj (length_toBits _ _) ?_
  rw [ofBits_toBits, Nat.mod_eq_of_lt (ofBits_lt l)]

theorem toBits_eq {n : Nat} {l : List Bool} (h : l.length = n) : toBits n (ofBits l) = l := by
  rw [← h, toBits_ofBits]

/-! ## Bytes -/

def bytesBits (b : Bytes) : List Bool := b.flatMap fun c => toBits 8 c.toNat

@[simp] theorem bytesBits_nil : bytesBits [] = [] := rfl

@[simp] theorem bytesBits_cons (c : UInt8) (b : Bytes) :
    bytesBits (c :: b) = toBits 8 c.toNat ++ bytesBits b := rfl

@[simp] theorem bytesBits_append (a b : Bytes) :
    bytesBits (a ++ b) = bytesBits a ++ bytesBits b := List.flatMap_append

@[simp] theorem length_bytesBits (b : Bytes) : (bytesBits b).length = 8 * b.length := by
  induction b with
  | nil => rfl
  | cons c b ih =>
    rw [bytesBits_cons, List.length_append, length_toBits, ih, List.length_cons]
    omega

/-! ## Packed words -/

structure Packed (pack : UInt64) (held : List Bool) : Prop where
  le : held.length ≤ 64
  toNat_eq : pack.toNat = ofBits held * 2 ^ (64 - held.length)

theorem Packed.empty : Packed 0 [] := ⟨by simp, rfl⟩

theorem toNat_ofNat_lt {n : Nat} (h : n < 2 ^ 64) : (UInt64.ofNat n).toNat = n := by
  rw [UInt64.toNat_ofNat']
  exact Nat.mod_eq_of_lt h

/-- The bits of a number `v` below those that are held. -/
theorem Packed.push {pack : UInt64} {held : List Bool} (h : Packed pack held) {s v : Nat}
    (hs : held.length + s ≤ 64) (hpos : 0 < held.length + s) (hv : v < 2 ^ s) :
    Packed (pack ||| (UInt64.ofNat v <<< UInt64.ofNat (64 - (held.length + s))))
      (held ++ toBits s v) := by
  have hlen : (held ++ toBits s v).length = held.length + s := by simp
  refine ⟨by omega, ?_⟩
  have hpow : 2 ^ (64 - held.length) = 2 ^ s * 2 ^ (64 - (held.length + s)) := by
    rw [← Nat.pow_add]
    congr 1
    omega
  have hlow : v * 2 ^ (64 - (held.length + s)) < 2 ^ (64 - held.length) := by
    rw [hpow]
    exact Nat.mul_lt_mul_of_pos_right hv (Nat.two_pow_pos _)
  have hle : 2 ^ (64 - held.length) ≤ 2 ^ 64 := Nat.pow_le_pow_right (by omega) (by omega)
  have hvle : 2 ^ s ≤ 2 ^ 64 := Nat.pow_le_pow_right (by omega) (by omega)
  have hshift : (UInt64.ofNat v <<< UInt64.ofNat (64 - (held.length + s))).toNat =
      v * 2 ^ (64 - (held.length + s)) := by
    rw [UInt64.toNat_shiftLeft, toNat_ofNat_lt (by omega), toNat_ofNat_lt (by omega),
      Nat.mod_eq_of_lt (show 64 - (held.length + s) < 64 by omega), Nat.shiftLeft_eq,
      Nat.mod_eq_of_lt (by omega)]
  rw [UInt64.toNat_or, hshift, h.toNat_eq, Nat.mul_comm (ofBits held),
    ← Nat.two_pow_add_eq_or_of_lt hlow, hlen, ofBits_append, length_toBits, ofBits_toBits,
    Nat.mod_eq_of_lt hv, hpow]
  ring

theorem ofBits_take_drop (l : List Bool) (c : Nat) :
    ofBits l = ofBits (l.take c) * 2 ^ (l.length - c) + ofBits (l.drop c) := by
  conv_lhs => rw [← List.take_append_drop c l]
  rw [ofBits_append, List.length_drop]

theorem Packed.drop {pack : UInt64} {held : List Bool} (h : Packed pack held) {c : Nat}
    (hc : c ≤ held.length) (h64 : c < 64) :
    Packed (pack <<< UInt64.ofNat c) (held.drop c) := by
  have hle := h.le
  refine ⟨by simp; omega, ?_⟩
  have hlt : ofBits (held.drop c) * 2 ^ (64 - (held.length - c)) < 2 ^ 64 := by
    have := ofBits_lt (held.drop c)
    rw [List.length_drop] at this
    calc _ < 2 ^ (held.length - c) * 2 ^ (64 - (held.length - c)) :=
          Nat.mul_lt_mul_of_pos_right this (Nat.two_pow_pos _)
      _ = 2 ^ 64 := by rw [← Nat.pow_add]; congr 1; omega
  have hval : pack.toNat * 2 ^ c =
      2 ^ 64 * ofBits (held.take c) + ofBits (held.drop c) * 2 ^ (64 - (held.length - c)) := by
    have h1 : 2 ^ (64 - held.length) * 2 ^ c = 2 ^ (64 - (held.length - c)) := by
      rw [← Nat.pow_add]; congr 1; omega
    have h2 : 2 ^ (held.length - c) * 2 ^ (64 - (held.length - c)) = 2 ^ 64 := by
      rw [← Nat.pow_add]; congr 1; omega
    rw [h.toNat_eq, Nat.mul_assoc, h1, ofBits_take_drop held c, Nat.add_mul, Nat.mul_assoc, h2,
      Nat.mul_comm (ofBits (held.take c))]
  rw [UInt64.toNat_shiftLeft, toNat_ofNat_lt (by omega), Nat.mod_eq_of_lt h64, Nat.shiftLeft_eq,
    hval, Nat.mul_add_mod, Nat.mod_eq_of_lt hlt, List.length_drop]

/-- The top `n` bits, with zeros where fewer are held. -/
theorem Packed.top {pack : UInt64} {held : List Bool} (h : Packed pack held) {n : Nat}
    (h0 : 0 < n) (h64 : n ≤ 64) :
    (pack >>> UInt64.ofNat (64 - n)).toNat =
      ofBits ((held ++ List.replicate n false).take n) := by
  have hle := h.le
  rw [UInt64.toNat_shiftRight, toNat_ofNat_lt (by omega), Nat.mod_eq_of_lt (by omega),
    Nat.shiftRight_eq_div_pow, h.toNat_eq]
  by_cases hn : n ≤ held.length
  · have hpow : 2 ^ (64 - n) = 2 ^ (held.length - n) * 2 ^ (64 - held.length) := by
      rw [← Nat.pow_add]; congr 1; omega
    have hlt := ofBits_lt (held.drop n)
    rw [List.length_drop] at hlt
    rw [List.take_append_of_le_length hn, hpow, Nat.mul_div_mul_right _ _ (Nat.two_pow_pos _),
      ofBits_take_drop held n, Nat.mul_comm, Nat.mul_add_div (Nat.two_pow_pos _),
      Nat.div_eq_of_lt hlt, Nat.add_zero]
  · have hpow : 2 ^ (64 - held.length) = 2 ^ (n - held.length) * 2 ^ (64 - n) := by
      rw [← Nat.pow_add]; congr 1; omega
    rw [List.take_append, List.take_of_length_le (by omega), List.take_replicate,
      Nat.min_eq_left (by omega), ofBits_append, ofBits_replicate_false, Nat.add_zero,
      List.length_replicate, hpow, ← Nat.mul_assoc, Nat.mul_div_cancel _ (Nat.two_pow_pos _)]

/-- The top byte of a word that holds one. -/
theorem Packed.top_byte {pack : UInt64} {held : List Bool} (h : Packed pack held)
    (h8 : 8 ≤ held.length) : toBits 8 (pack >>> 56).toUInt8.toNat = held.take 8 := by
  have htop := h.top (n := 8) (by omega) (by omega)
  rw [List.take_append_of_le_length h8] at htop
  have hlt := ofBits_lt (held.take 8)
  rw [List.length_take, Nat.min_eq_left h8] at hlt
  have hbyte : (pack >>> 56).toUInt8.toNat = ofBits (held.take 8) := by
    rw [UInt64.toNat_toUInt8, show pack >>> 56 = pack >>> UInt64.ofNat (64 - 8) from rfl, htop]
    exact Nat.mod_eq_of_lt hlt
  rw [hbyte]
  exact toBits_eq (by simp [h8])

end VTest
