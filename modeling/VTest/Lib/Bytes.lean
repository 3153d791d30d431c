import Mathlib

/-!
# VTest.Lib.Bytes

What every model of a C function in this development starts from: byte strings, byte memories
that are written in place, big-endian numbers, and the ways a C function can end other than by
returning.

* `put m off b` is `memcpy(m + off, b, |b|)` on a memory `m`; `Holds m s b` says that `m` has `b`
  at offset `s`. A write outside of `[s, s + |b|)` keeps `Holds m s b` (`Holds.set`).
* `cstr m s` is the C string at offset `s`: the bytes up to the first NUL.
* `vbe16enc` ... `vbe32dec` are the big-endian accessors.
-/

namespace VTest

abbrev Bytes := List UInt8

/-- How a C function can end other than by returning: a failed assertion, a fatal log entry
(which ends the test), an access that the C standard leaves undefined. `fuel` is none of the
three: the bounded run has not ended yet. -/
inductive Trap where
  | assert
  | fatal
  | ub
  | fuel
  deriving DecidableEq, Repr

abbrev Res := Except Trap

/-- `assert(c)`. -/
def check (c : Bool) : Res Unit := if c then .ok () else .error .assert

/-- `if (c) vtc_fatal(...)`. -/
def fatalIf (c : Bool) : Res Unit := if c then .error .fatal else .ok ()

@[simp] theorem fatalIf_true : fatalIf true = .error .fatal := rfl

@[simp] theorem fatalIf_false : fatalIf false = .ok () := rfl

@[simp] theorem check_true : check true = .ok () := rfl

@[simp] theorem check_false : check false = .error .assert := rfl

@[simp] theorem ok_bind {α β : Type} (a : α) (f : α → Res β) : (Except.ok a >>= f) = f a := rfl

@[simp] theorem error_bind {α β : Type} (e : Trap) (f : α → Res β) :
    ((Except.error e : Res α) >>= f) = .error e := rfl

@[simp] theorem pure_res {α : Type} (a : α) : (pure a : Res α) = .ok a := rfl

theorem bind_eq_ok {α β : Type} {x : Res α} {f : α → Res β} {b : β} :
    x >>= f = .ok b ↔ ∃ a, x = .ok a ∧ f a = .ok b := by
  cases x with
  | error e => simp
  | ok a => simp

theorem check_bind_eq_ok {α : Type} {c : Bool} {f : Unit → Res α} {a : α} :
    check c >>= f = .ok a ↔ c = true ∧ f () = .ok a := by
  cases c <;> simp

theorem check_ne_assert {b : Bool} (h : b = true) {α : Type} {x : Res α} (hx : x ≠ .error .assert) :
    (check b >>= fun _ => x) ≠ .error .assert := by
  subst h
  exact hx

theorem fatalIf_bind_eq_ok {α : Type} {c : Bool} {f : Unit → Res α} {a : α} :
    fatalIf c >>= f = .ok a ↔ c = false ∧ f () = .ok a := by
  cases c <;> simp

/-- The bytes of an ASCII string literal. -/
def ascii (s : String) : Bytes := s.toList.map fun c => UInt8.ofNat c.toNat

/-! ## Memories -/

/-- `memcpy(m + off, b, |b|)`. -/
def put (m : Bytes) (off : Nat) (b : Bytes) : Bytes := m.take off ++ b ++ m.drop (off + b.length)

theorem length_put {m b : Bytes} {off : Nat} (h : off + b.length ≤ m.length) :
    (put m off b).length = m.length := by
  simp only [put, List.length_append, List.length_take, List.length_drop]
  omega

/-- `put` on a memory that is cut at the right places. -/
theorem put_append {a old b r : Bytes} (h : old.length = b.length) :
    put (a ++ old ++ r) a.length b = a ++ b ++ r := by
  simp [put, List.drop_append, h]

/-- `put` that must stay within the memory. -/
def poke (m : Bytes) (off : Nat) (b : Bytes) : Res Bytes :=
  if off + b.length ≤ m.length then .ok (put m off b) else .error .ub

theorem poke_append {a old b r : Bytes} (h : old.length = b.length) :
    poke (a ++ old ++ r) a.length b = .ok (a ++ b ++ r) := by
  rw [poke, if_pos (by simp; omega), put_append h]

theorem poke_of_le {m b : Bytes} {off : Nat} (h : off + b.length ≤ m.length) :
    poke m off b = .ok (put m off b) :=
  if_pos h

theorem poke_eq_ok {m b m' : Bytes} {off : Nat} (h : poke m off b = .ok m') :
    off + b.length ≤ m.length ∧ m' = put m off b := by
  rw [poke] at h
  split at h
  · rename_i hle
    cases h
    exact ⟨hle, rfl⟩
  · cases h

theorem take_put {m b : Bytes} {off : Nat} (h : off ≤ m.length) :
    (put m off b).take (off + b.length) = m.take off ++ b := by
  rw [put, List.take_left' (by simp; omega)]

/-- What a write leaves, byte by byte. -/
theorem getElem?_put {m b : Bytes} {off : Nat} (h : off + b.length ≤ m.length) (k : Nat) :
    (put m off b)[k]? = if off ≤ k ∧ k < off + b.length then b[k - off]? else m[k]? := by
  have hlen : (m.take off).length = off := by
    rw [List.length_take]
    omega
  rw [put, List.append_assoc]
  by_cases h1 : k < off
  · rw [List.getElem?_append_left (by omega), List.getElem?_take_of_lt h1, if_neg (by omega)]
  · rw [List.getElem?_append_right (by omega), hlen]
    by_cases h2 : k < off + b.length
    · rw [List.getElem?_append_left (by omega), if_pos (by omega)]
    · rw [List.getElem?_append_right (by omega), List.getElem?_drop, if_neg (by omega)]
      congr 1
      omega

/-- Two writes one behind the other are one. -/
theorem put_put {m a b : Bytes} {off : Nat} (h : off + a.length ≤ m.length) :
    put (put m off a) (off + a.length) b = put m off (a ++ b) := by
  have hdrop : (put m off a).drop (off + a.length + b.length) =
      m.drop (off + (a ++ b).length) := by
    rw [put, ← List.drop_drop, List.drop_left' (by simp; omega), List.drop_drop,
      List.length_append]
    congr 1
    omega
  rw [put, take_put (by omega), hdrop, put]
  simp

/-- `m` has the bytes `b` at offset `s`. -/
def Holds (m : Bytes) (s : Nat) (b : Bytes) : Prop := (m.drop s).take b.length = b

theorem holds_append (a b r : Bytes) : Holds (a ++ b ++ r) a.length b := by
  simp [Holds]

theorem Holds.le {m b : Bytes} {s : Nat} (h : Holds m s b) (hb : b ≠ []) :
    s + b.length ≤ m.length := by
  have e := congrArg List.length h
  have : 0 < b.length := List.length_pos_iff.mpr hb
  simp only [List.length_take, List.length_drop] at e
  omega

/-- A write outside of the bytes `m` is known to hold leaves them there. -/
theorem Holds.set {m b : Bytes} {s i : Nat} {c : UInt8} (h : Holds m s b)
    (hi : i < s ∨ s + b.length ≤ i) : Holds (m.set i c) s b := by
  unfold Holds at h ⊢
  rw [List.drop_set]
  rcases hi with hi | hi
  · rw [if_pos hi]; exact h
  · rw [if_neg (by omega), List.take_set_of_le (by omega)]; exact h

/-- What is held in the first bytes does not depend on the others. -/
theorem Holds.of_common {a x y b : Bytes} {s : Nat} (h : Holds (a ++ x) s b)
    (hs : s + b.length ≤ a.length) : Holds (a ++ y) s b := by
  unfold Holds at h ⊢
  rw [List.drop_append_of_le_length (by omega)] at h ⊢
  rw [List.take_append_of_le_length (by simp; omega)] at h ⊢
  exact h

theorem Holds.append_left {x b : Bytes} {s : Nat} (h : Holds x s b) (a : Bytes) :
    Holds (a ++ x) (a.length + s) b := by
  unfold Holds at h ⊢
  rw [List.drop_length_add_append]
  exact h

/-- The C string at offset `s`. -/
def cstr (m : Bytes) (s : Nat) : Bytes := (m.drop s).takeWhile (· ≠ 0)

theorem cstr_of_holds {m b : Bytes} {s : Nat} (h : Holds m s b) (hb : ∀ c ∈ b, c ≠ 0)
    (h0 : m.getD (s + b.length) 0 = 0) : cstr m s = b := by
  have e : m.drop s = b ++ m.drop (s + b.length) := by
    rw [← List.drop_drop]
    conv_lhs => rw [← List.take_append_drop b.length (m.drop s)]
    rw [h]
  have hr : (m.drop (s + b.length)).takeWhile (· ≠ 0) = [] := by
    cases hd : m.drop (s + b.length) with
    | nil => rfl
    | cons c r =>
      have hc : m.getD (s + b.length) 0 = c := by
        have e0 : (m.drop (s + b.length))[0]? = m[s + b.length]? := by simp
        rw [hd] at e0
        simp at e0
        simp [List.getD_eq_getElem?_getD, ← e0]
      simp [hc ▸ h0]
  rw [cstr, e, List.takeWhile_append_of_pos (by simpa using hb), hr, List.append_nil]

theorem cstr_at (a t : Bytes) : cstr (a ++ t) a.length = t.takeWhile (· ≠ 0) := by
  rw [cstr, List.drop_left]

/-- The C string between what is in front of it and a NUL. -/
theorem cstr_append {a b r : Bytes} (hb : ∀ c ∈ b, c ≠ 0) :
    cstr (a ++ (b ++ 0 :: r)) a.length = b := by
  rw [cstr_at, List.takeWhile_append_of_pos (by simpa using hb)]
  simp

/-! ## Big-endian numbers -/

def vbe16enc (u : Nat) : Bytes := [UInt8.ofNat (u / 2 ^ 8), UInt8.ofNat u]

def vbe32enc (u : Nat) : Bytes :=
  [UInt8.ofNat (u / 2 ^ 24), UInt8.ofNat (u / 2 ^ 16), UInt8.ofNat (u / 2 ^ 8), UInt8.ofNat u]

def vbe16dec : Bytes → Res Nat
  | a :: b :: _ => .ok (a.toNat * 2 ^ 8 + b.toNat)
  | _ => .error .ub

def vbe32dec : Bytes → Res Nat
  | a :: b :: c :: d :: _ =>
    .ok (a.toNat * 2 ^ 24 + b.toNat * 2 ^ 16 + c.toNat * 2 ^ 8 + d.toNat)
  | _ => .error .ub

@[simp] theorem length_vbe16enc (u : Nat) : (vbe16enc u).length = 2 := rfl

@[simp] theorem length_vbe32enc (u : Nat) : (vbe32enc u).length = 4 := rfl

theorem vbe16dec_enc (u : Nat) (r : Bytes) (h : u < 2 ^ 16) :
    vbe16dec (vbe16enc u ++ r) = .ok u := by
  simp only [vbe16enc, List.cons_append, List.nil_append, vbe16dec, UInt8.toNat_ofNat']
  congr 1
  omega

theorem vbe32dec_enc (u : Nat) (r : Bytes) (h : u < 2 ^ 32) :
    vbe32dec (vbe32enc u ++ r) = .ok u := by
  simp only [vbe32enc, List.cons_append, List.nil_append, vbe32dec, UInt8.toNat_ofNat']
  congr 1
  omega

end VTest
