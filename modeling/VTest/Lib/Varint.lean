import VTest.Lib.Bytes

/-!
# VTest.Lib.Varint

Numbers as groups of seven bits, the lowest group first, with the top bit set in every byte but
the last.

* `val g` is the number a run of groups stands for, whatever their top bits are.
* `decode` reads the number at the front of a byte string, `encode` writes the shortest run of
  groups for one; `decode_encode` is the round trip.
* `decode_append`: what `decode` takes off the front is a run of bytes with the top bit set and
  one without.
-/

namespace VTest
namespace Varint

/-- The number the groups of `g` stand for. -/
def val : Bytes → Nat
  | [] => 0
  | c :: r => c.toNat % 128 + 128 * val r

/-- The number at the front of `b` and the bytes behind it; `none` when `b` ends inside of it. -/
def decode : Bytes → Option (Nat × Bytes)
  | [] => none
  | c :: r =>
    if c.toNat < 128 then some (c.toNat, r)
    else (decode r).map fun p => (c.toNat % 128 + 128 * p.1, p.2)

def encode (n : Nat) : Bytes :=
  if n < 128 then [UInt8.ofNat n] else UInt8.ofNat (n % 128 + 128) :: encode (n / 128)
termination_by n
decreasing_by omega

theorem toNat_ofNat {n : Nat} (h : n < 256) : (UInt8.ofNat n).toNat = n := by
  rw [UInt8.toNat_ofNat']
  exact Nat.mod_eq_of_lt h

theorem encode_of_lt {n : Nat} (h : n < 128) : encode n = [UInt8.ofNat n] := by
  rw [encode, if_pos h]

theorem encode_of_ge {n : Nat} (h : 128 ≤ n) :
    encode n = UInt8.ofNat (n % 128 + 128) :: encode (n / 128) := by
  rw [encode, if_neg (by omega)]

theorem encode_ne_nil (n : Nat) : encode n ≠ [] := by
  by_cases h : n < 128
  · simp [encode_of_lt h]
  · simp [encode_of_ge (by omega : 128 ≤ n)]

theorem decode_cons_lt {c : UInt8} (r : Bytes) (h : c.toNat < 128) :
    decode (c :: r) = some (c.toNat, r) := by
  rw [decode, if_pos h]

theorem decode_cons_ge {c : UInt8} (r : Bytes) (h : 128 ≤ c.toNat) :
    decode (c :: r) = (decode r).map fun p => (c.toNat % 128 + 128 * p.1, p.2) := by
  rw [decode, if_neg (by omega)]

theorem decode_encode (n : Nat) (rest : Bytes) : decode (encode n ++ rest) = some (n, rest) := by
  induction n using Nat.strongRecOn with
  | ind n ih =>
    by_cases h : n < 128
    · have hn : (UInt8.ofNat n).toNat = n := toNat_ofNat (by omega)
      rw [encode_of_lt h, List.singleton_append, decode_cons_lt _ (by omega), hn]
    · have hn : (UInt8.ofNat (n % 128 + 128)).toNat = n % 128 + 128 := toNat_ofNat (by omega)
      rw [encode_of_ge (by omega), List.cons_append, decode_cons_ge _ (by omega),
        ih (n / 128) (by omega), hn]
      simp only [Option.map_some, Option.some.injEq, Prod.mk.injEq, and_true]
      omega

/-- A number below `128 ^ k` takes at most `k` bytes. -/
theorem length_encode_le {k : Nat} :
    ∀ {n : Nat}, n < 128 ^ (k + 1) → (encode n).length ≤ k + 1 := by
  induction k with
  | zero =>
    intro n h
    rw [encode_of_lt (by simpa using h)]
    rfl
  | succ k ih =>
    intro n h
    by_cases hn : n < 128
    · rw [encode_of_lt hn]
      simp
    · rw [encode_of_ge (by omega), List.length_cons]
      have hlt : n / 128 < 128 ^ (k + 1) :=
        Nat.div_lt_of_lt_mul (by rw [Nat.mul_comm, ← Nat.pow_succ]; exact h)
      have := ih hlt
      omega

/-- What `decode` takes: groups with the top bit set, and a last one without. -/
theorem decode_eq_some {b : Bytes} {v : Nat} {rest : Bytes} (h : decode b = some (v, rest)) :
    ∃ g c, b = g ++ c :: rest ∧ (∀ x ∈ g, 128 ≤ x.toNat) ∧ c.toNat < 128 ∧ v = val (g ++ [c]) := by
  induction b generalizing v with
  | nil => cases h
  | cons c r ih =>
    by_cases hc : c.toNat < 128
    · rw [decode_cons_lt r hc] at h
      cases h
      exact ⟨[], c, rfl, by simp, hc, by simp [val, Nat.mod_eq_of_lt hc]⟩
    · rw [decode_cons_ge r (by omega)] at h
      obtain ⟨⟨v', rest'⟩, hd, he⟩ := Option.map_eq_some_iff.mp h
      cases he
      obtain ⟨g, c', rfl, hg, hc', rfl⟩ := ih hd
      refine ⟨c :: g, c', rfl, ?_, hc', rfl⟩
      intro x hx
      rcases List.mem_cons.mp hx with rfl | hx
      · omega
      · exact hg x hx

end Varint
end VTest
