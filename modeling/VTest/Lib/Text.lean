import VTest.Lib.Bytes

/-!
# VTest.Lib.Text

C strings as texts: decimal numbers as `printf` writes them, `strtoul`, comparison that ignores
case, and `strtok_r`.

* `strtoul_decimal`: a number reads back.
* `words_of_strtok`, `words_of_strtok_none`: calling `strtok_r` until it returns NULL goes through
  the words of a text.
-/

namespace VTest

/-! ## Numbers -/

def digit (d : Nat) : UInt8 := UInt8.ofNat (48 + d)

def decimalGo : Nat → Nat → Bytes → Bytes
  | 0, _, acc => acc
  | fuel + 1, n, acc =>
    if n / 10 = 0 then digit (n % 10) :: acc else decimalGo fuel (n / 10) (digit (n % 10) :: acc)

/-- `%d` of a number that is not negative. -/
def decimal (n : Nat) : Bytes := decimalGo (n + 1) n []

/-- `isspace` in the C locale. -/
def isspace (b : UInt8) : Bool := b = 32 || (9 ≤ b && b ≤ 13)

/-- The value of a digit, letters included. -/
def digitVal (b : UInt8) : Option Nat :=
  if 48 ≤ b && b ≤ 57 then some (b.toNat - 48)
  else if 97 ≤ b && b ≤ 122 then some (b.toNat - 87)
  else if 65 ≤ b && b ≤ 90 then some (b.toNat - 55)
  else none

def digitIn (base : Nat) (b : UInt8) : Option Nat := (digitVal b).filter (· < base)

/-- The digits at the start of a text: their value and what follows. -/
def digits (base : Nat) : Nat → Bytes → Nat × Bytes
  | acc, [] => (acc, [])
  | acc, b :: r =>
    match digitIn base b with
    | some d => digits base (acc * base + d) r
    | none => (acc, b :: r)

/-- The sign in front of a number. -/
def signOf : Bytes → Bool × Bytes
  | 43 :: r => (false, r)
  | 45 :: r => (true, r)
  | r => (false, r)

/-- `0x` in front of a hexadecimal digit. -/
def skip0x (base : Nat) : Bytes → Bytes
  | 48 :: x :: d :: r =>
    if base = 16 ∧ (x = 120 ∨ x = 88) ∧ (digitIn 16 d).isSome then d :: r else 48 :: x :: d :: r
  | r => r

/-- The base that base 0 stands for. -/
def baseOf : Bytes → Nat
  | 48 :: x :: d :: _ => if (x = 120 ∨ x = 88) ∧ (digitIn 16 d).isSome then 16 else 8
  | 48 :: _ => 8
  | _ => 10

/-- `strtoul(s, &q, base)` for base 0, 10 or 16: the value, and the text at `q`. -/
def strtoul (base : Nat) (s : Bytes) : Nat × Bytes :=
  let (neg, t) := signOf (s.dropWhile isspace)
  let base := if base = 0 then baseOf t else base
  let t := skip0x base t
  if (t.head?.bind (digitIn base)).isNone then (0, s)
  else
    let (v, r) := digits base 0 t
    if 2 ^ 64 ≤ v then (2 ^ 64 - 1, r) else (if neg then (2 ^ 64 - v) % 2 ^ 64 else v, r)

/-- Conversion to a 32-bit `int`. -/
def toInt32 (v : Nat) : Int :=
  if v % 2 ^ 32 < 2 ^ 31 then (v % 2 ^ 32 : Nat) else (v % 2 ^ 32 : Nat) - 2 ^ 32

/-- `atoi`, which is `strtol` to base 10 and a conversion. -/
def atoi (s : Bytes) : Int :=
  let (neg, t) := signOf (s.dropWhile isspace)
  let v := (digits 10 0 t).1
  toInt32 (if neg then 2 ^ 64 - min v (2 ^ 63) else min v (2 ^ 63 - 1))

theorem toInt32_of_lt {v : Nat} (h : v < 2 ^ 31) : toInt32 v = v := by
  rw [toInt32, Nat.mod_eq_of_lt (by omega), if_pos h]

theorem toInt32_lt (v : Nat) : toInt32 v < 2 ^ 31 := by
  rw [toInt32]
  split <;> omega

/-- A digit as `printf` writes it for `%x`; the digits of smaller bases are among these. -/
def xdigit (d : Nat) : UInt8 := UInt8.ofNat (if d < 10 then 48 + d else 87 + d)

def numeralGo (base : Nat) : Nat → Nat → Bytes → Bytes
  | 0, _, acc => acc
  | fuel + 1, n, acc =>
    if n / base = 0 then xdigit (n % base) :: acc
    else numeralGo base fuel (n / base) (xdigit (n % base) :: acc)

/-- `%x`, and `%d` for base 10. -/
def numeral (base n : Nat) : Bytes := numeralGo base (n + 1) n []

theorem digit_eq_xdigit {d : Nat} (h : d < 10) : digit d = xdigit d := by
  rw [digit, xdigit, if_pos h]

theorem decimalGo_eq (n : Nat) : ∀ (fuel : Nat) (acc : Bytes), n < fuel →
    decimalGo fuel n acc = decimal n ++ acc := by
  induction n using Nat.strongRecOn with
  | ind n ih =>
    intro fuel acc hf
    obtain ⟨fuel, rfl⟩ := Nat.exists_eq_succ_of_ne_zero (Nat.ne_zero_of_lt hf)
    rw [decimal, decimalGo, decimalGo]
    by_cases h : n / 10 = 0
    · rw [if_pos h, if_pos h]
      rfl
    · have hlt : n / 10 < n := by omega
      rw [if_neg h, if_neg h, ih _ hlt fuel _ (by omega), ih _ hlt n _ hlt, List.append_assoc]
      rfl

theorem decimal_of_lt {n : Nat} (h : n < 10) : decimal n = [digit n] := by
  rw [decimal, decimalGo, if_pos (Nat.div_eq_of_lt h), Nat.mod_eq_of_lt h]

theorem decimal_of_ge {n : Nat} (h : 10 ≤ n) :
    decimal n = decimal (n / 10) ++ [digit (n % 10)] := by
  rw [decimal, decimalGo, if_neg (by omega), decimalGo_eq _ _ _ (by omega)]

theorem length_decimal_le {n k : Nat} (h : n < 10 ^ (k + 1)) : (decimal n).length ≤ k + 1 := by
  induction k generalizing n with
  | zero =>
    rw [decimal_of_lt (by simpa using h)]
    exact Nat.le_refl 1
  | succ k ih =>
    by_cases hn : n < 10
    · rw [decimal_of_lt hn]
      exact Nat.le_add_left 1 _
    · rw [decimal_of_ge (Nat.le_of_not_lt hn), List.length_append, List.length_singleton]
      have hdiv : n / 10 < 10 ^ (k + 1) := by
        rw [Nat.pow_succ] at h
        omega
      exact Nat.succ_le_succ (ih hdiv)

theorem decimal_eq_numeral (n : Nat) : decimal n = numeral 10 n := by
  have general : ∀ (fuel n : Nat) (acc : Bytes),
      decimalGo fuel n acc = numeralGo 10 fuel n acc := by
    intro fuel
    induction fuel with
    | zero => intro n acc; rfl
    | succ fuel ih =>
      intro n acc
      rw [decimalGo, numeralGo, digit_eq_xdigit (Nat.mod_lt n (by decide)), ih]
  exact general (n + 1) n []

/-- A digit is read as its value, and as nothing else that `strtoul` looks for. -/
theorem xdigit_spec : ∀ d : Fin 16, digitVal (xdigit d) = some d.val ∧
    isspace (xdigit d) = false ∧ xdigit d ≠ 43 ∧ xdigit d ≠ 45 ∧ xdigit d ≠ 120 ∧
    xdigit d ≠ 88 := by
  decide

section Numeral

variable {base : Nat}

theorem digitIn_xdigit {d : Nat} (hb : base ≤ 16) (h : d < base) :
    digitIn base (xdigit d) = some d := by
  rw [digitIn, (xdigit_spec ⟨d, by omega⟩).1]
  simp [Option.filter, h]

/-- Digits that are written in front of `acc` are read before it. -/
theorem digits_numeralGo (h2 : 2 ≤ base) (h16 : base ≤ 16) (r : Bytes) :
    ∀ (fuel n : Nat) (acc : Bytes), n < fuel →
      digits base 0 (numeralGo base fuel n acc ++ r) = digits base n (acc ++ r) := by
  intro fuel
  induction fuel with
  | zero => intro n acc h; omega
  | succ fuel ih =>
    intro n acc h
    have hmod := Nat.mod_lt n (by omega : base > 0)
    have hdiv := Nat.div_add_mod' n base
    have hstep : ∀ m, digits base m (xdigit (n % base) :: (acc ++ r)) =
        digits base (m * base + n % base) (acc ++ r) := by
      intro m
      rw [digits, digitIn_xdigit h16 hmod]
    rw [numeralGo]
    split
    · rename_i h0
      rw [h0, Nat.zero_mul, Nat.zero_add] at hdiv
      rw [List.cons_append, hstep, Nat.zero_mul, Nat.zero_add, hdiv]
    · rename_i h0
      have hpos : 0 < n := Nat.pos_of_ne_zero fun e => h0 (by rw [e, Nat.zero_div])
      have hlt : n / base < n := Nat.div_lt_self hpos (by omega)
      rw [ih (n / base) _ (by omega), List.cons_append, hstep, hdiv]

theorem digits_numeral (h2 : 2 ≤ base) (h16 : base ≤ 16) (n : Nat) :
    digits base 0 (numeral base n) = (n, []) := by
  have := digits_numeralGo h2 h16 [] (n + 1) n [] (by omega)
  rwa [List.append_nil] at this

theorem numeralGo_head (h2 : 2 ≤ base) : ∀ (fuel n : Nat) (acc : Bytes), n < fuel →
    ∃ d r, d < base ∧ (0 < n → 0 < d) ∧ numeralGo base fuel n acc = xdigit d :: r := by
  intro fuel
  induction fuel with
  | zero => intro n acc h; omega
  | succ fuel ih =>
    intro n acc h
    rw [numeralGo]
    split
    · rename_i h0
      -- the quotient is 0, so the last digit is the number itself
      have hmod : n % base = n := by
        have := Nat.div_add_mod n base
        rwa [h0, Nat.mul_zero, Nat.zero_add] at this
      exact ⟨n % base, acc, Nat.mod_lt n (by omega), fun hn => hmod.symm ▸ hn, rfl⟩
    · rename_i h0
      have hpos : 0 < n := Nat.pos_of_ne_zero fun e => h0 (by rw [e, Nat.zero_div])
      have hlt : n / base < n := Nat.div_lt_self hpos (by omega)
      obtain ⟨d, r, hd, hd0, hr⟩ := ih (n / base) (xdigit (n % base) :: acc) (by omega)
      exact ⟨d, r, hd, fun _ => hd0 (Nat.pos_of_ne_zero h0), hr⟩

theorem numeral_head (h2 : 2 ≤ base) (n : Nat) :
    ∃ d r, d < base ∧ (0 < n → 0 < d) ∧ numeral base n = xdigit d :: r :=
  numeralGo_head h2 (n + 1) n [] (by omega)

/-- A numeral has digits only. -/
theorem mem_numeral (h2 : 2 ≤ base) {n : Nat} {b : UInt8} (h : b ∈ numeral base n) :
    ∃ d, d < base ∧ b = xdigit d := by
  have general : ∀ (fuel n : Nat) (acc : Bytes), b ∈ numeralGo base fuel n acc →
      b ∈ acc ∨ ∃ d, d < base ∧ b = xdigit d := by
    intro fuel
    induction fuel with
    | zero => intro n acc hb; exact .inl hb
    | succ fuel ih =>
      intro n acc hb
      have hcons : b ∈ xdigit (n % base) :: acc → b ∈ acc ∨ ∃ d, d < base ∧ b = xdigit d := by
        intro h
        rcases List.mem_cons.mp h with rfl | h
        · exact .inr ⟨n % base, Nat.mod_lt n (by omega), rfl⟩
        · exact .inl h
      rw [numeralGo] at hb
      split at hb
      · exact hcons hb
      · rcases ih _ _ hb with h | h
        · exact hcons h
        · exact .inr h
  rcases general _ _ _ h with h | h
  · cases h
  · exact h

theorem signOf_of_ne {b : UInt8} {r : Bytes} (h1 : b ≠ 43) (h2 : b ≠ 45) :
    signOf (b :: r) = (false, b :: r) := by
  unfold signOf
  split
  · rename_i he
    exact absurd (List.cons.inj he).1 h1
  · rename_i he
    exact absurd (List.cons.inj he).1 h2
  · rfl

/-- What `strtoul` looks for besides digits. -/
theorem digitIn_spec {b : UInt8} (h16 : base ≤ 16) (h : (digitIn base b).isSome) :
    isspace b = false ∧ b ≠ 43 ∧ b ≠ 45 ∧ b ≠ 120 ∧ b ≠ 88 := by
  have hall : ∀ b : UInt8, (digitIn 16 b).isSome →
      isspace b = false ∧ b ≠ 43 ∧ b ≠ 45 ∧ b ≠ 120 ∧ b ≠ 88 := by
    decide +kernel
  refine hall b ?_
  rw [digitIn, Option.isSome_filter, Option.any_eq_true] at h ⊢
  obtain ⟨d, hd, hlt⟩ := h
  exact ⟨d, hd, by simp at hlt ⊢; omega⟩

theorem digits_append {d r : Bytes} (hd : ∀ b ∈ d, (digitIn base b).isSome)
    (hr : r.head?.bind (digitIn base) = none) (acc : Nat) :
    digits base acc (d ++ r) = ((digits base acc d).1, r) := by
  induction d generalizing acc with
  | nil =>
    cases r with
    | nil => rfl
    | cons b r =>
      have hb : digitIn base b = none := hr
      simp only [List.nil_append, digits, hb]
  | cons b d ih =>
    obtain ⟨k, hk⟩ := Option.isSome_iff_exists.mp (hd b List.mem_cons_self)
    rw [List.cons_append, digits, hk, digits, hk]
    exact ih (fun c hc => hd c (List.mem_cons_of_mem b hc)) _

/-- Digits are read as the number that they are, up to what is not one. -/
theorem strtoul_digits (h0 : base ≠ 0) (h16 : base ≤ 16) {d r : Bytes} (hne : d ≠ [])
    (hd : ∀ b ∈ d, (digitIn base b).isSome)
    (hr : ∀ b, r.head? = some b → digitIn base b = none ∧ b ≠ 120 ∧ b ≠ 88)
    (hv : (digits base 0 d).1 < 2 ^ 64) : strtoul base (d ++ r) = ((digits base 0 d).1, r) := by
  have hval : digits base 0 (d ++ r) = ((digits base 0 d).1, r) := by
    refine digits_append hd ?_ 0
    cases hr' : r.head? with
    | none => rfl
    | some b => exact (hr b hr').1
  obtain ⟨b, d, rfl⟩ := List.exists_cons_of_ne_nil hne
  have hb := hd b List.mem_cons_self
  obtain ⟨hsp, h43, h45, -⟩ := digitIn_spec h16 hb
  -- the byte behind a leading zero is a digit, or one of `r`
  have hskip : skip0x base (b :: (d ++ r)) = b :: (d ++ r) := by
    have hx : ∀ x, (d ++ r).head? = some x → x ≠ 120 ∧ x ≠ 88 := by
      intro x hx
      cases d with
      | nil => exact (hr x hx).2
      | cons c d =>
        cases hx
        exact (digitIn_spec h16 (hd x (by simp))).2.2.2
    unfold skip0x
    split
    · rename_i x e t heq
      have hx := hx x (by rw [(List.cons.inj heq).2]; rfl)
      rw [if_neg, heq]
      rintro ⟨-, hx' | hx', -⟩
      · exact hx.1 hx'
      · exact hx.2 hx'
    · rfl
  rw [List.cons_append] at hval ⊢
  rw [strtoul, List.dropWhile_cons_of_neg (by simp [hsp]), signOf_of_ne h43 h45]
  simp only [if_neg h0, hskip, List.head?_cons, Option.bind_some, Option.isNone_iff_eq_none,
    Option.isSome_iff_ne_none.mp hb, if_false, hval, if_neg (Nat.not_le.mpr hv)]
  rfl

theorem digits_rest (acc : Nat) (s : Bytes) :
    ∃ d, s = d ++ (digits base acc s).2 ∧ ∀ b ∈ d, (digitIn base b).isSome := by
  induction s generalizing acc with
  | nil => exact ⟨[], rfl, fun _ h => nomatch h⟩
  | cons b s ih =>
    rw [digits]
    split
    · rename_i k hk
      obtain ⟨d, hs, hd⟩ := ih (acc * base + k)
      refine ⟨b :: d, congrArg (b :: ·) hs, fun c hc => ?_⟩
      rcases List.mem_cons.mp hc with rfl | hc
      · rw [hk]
        rfl
      · exact hd c hc
    · exact ⟨[], rfl, fun _ h => nomatch h⟩

/-- A number reads back, up to what is not a digit. -/
theorem strtoul_numeral (h2 : 2 ≤ base) (h16 : base ≤ 16) {n : Nat} (hn : n < 2 ^ 64) {r : Bytes}
    (hx : ∀ b ∈ r, b ≠ 120 ∧ b ≠ 88) (hr : digits base n r = (n, r)) :
    strtoul base (numeral base n ++ r) = (n, r) := by
  obtain ⟨d, t, -, -, ht⟩ := numeral_head h2 n
  have hval := digits_numeral h2 h16 n
  have hdig : ∀ b ∈ numeral base n, (digitIn base b).isSome := by
    intro b hb
    obtain ⟨e, he, rfl⟩ := mem_numeral h2 hb
    rw [digitIn_xdigit h16 he]
    rfl
  have hend : ∀ b, r.head? = some b → digitIn base b = none ∧ b ≠ 120 ∧ b ≠ 88 := by
    intro b hb
    obtain ⟨r', rfl⟩ := List.head?_eq_some_iff.mp hb
    refine ⟨?_, hx b List.mem_cons_self⟩
    -- a digit would not be left over
    cases hk : digitIn base b with
    | none => rfl
    | some k =>
      obtain ⟨e, he, -⟩ := @digits_rest base (n * base + k) r'
      simp only [digits, hk] at hr
      have hlen := congrArg List.length he
      rw [hr, List.length_append, List.length_cons] at hlen
      omega
  have := strtoul_digits (by omega) h16 (by rw [ht]; simp) hdig hend (by rw [hval]; exact hn)
  rwa [hval] at this

theorem signOf_rest (s : Bytes) : (signOf s).2 <:+ s := by
  unfold signOf
  split
  · exact List.suffix_cons _ _
  · exact List.suffix_cons _ _
  · exact List.suffix_refl _

theorem skip0x_rest (s : Bytes) : skip0x base s <:+ s := by
  unfold skip0x
  split
  · split
    · exact ⟨[48, _], rfl⟩
    · exact List.suffix_refl _
  · exact List.suffix_refl _

/-- What `strtoul` takes off a text ends with a digit. -/
theorem strtoul_rest (h0 : base ≠ 0) (s : Bytes) :
    ∃ p, s = p ++ (strtoul base s).2 ∧ ∀ b, p.getLast? = some b → (digitIn base b).isSome := by
  let t := skip0x base (signOf (s.dropWhile isspace)).2
  have hsuf : t <:+ s := ((skip0x_rest _).trans (signOf_rest _)).trans (List.dropWhile_suffix _)
  obtain ⟨x, hx⟩ := hsuf
  by_cases hn : (t.head?.bind (digitIn base)).isNone
  · refine ⟨[], ?_, fun _ h => nomatch h⟩
    simp only [strtoul, if_neg h0]
    rw [if_pos hn]
    rfl
  · obtain ⟨c, t', k, ht, hk⟩ : ∃ c t' k, t = c :: t' ∧ digitIn base c = some k := by
      cases ht : t with
      | nil => exact absurd (by rw [ht]; rfl) hn
      | cons c t' =>
        cases hk : digitIn base c with
        | none => exact absurd (by rw [ht]; simp [hk]) hn
        | some k => exact ⟨c, t', k, rfl, hk⟩
    obtain ⟨d, hd, hdig⟩ := @digits_rest base (0 * base + k) t'
    have hdigits : digits base 0 (c :: t') = digits base (0 * base + k) t' := by
      rw [digits, hk]
    have hrest : (strtoul base s).2 = (digits base (0 * base + k) t').2 := by
      simp only [strtoul, if_neg h0]
      rw [if_neg hn, show skip0x base _ = c :: t' from ht, hdigits]
      split <;> rfl
    refine ⟨x ++ c :: d, ?_, fun b hb => ?_⟩
    · rw [hrest, List.append_assoc, List.cons_append, ← hd, ← ht, hx]
    · rw [List.getLast?_append_of_ne_nil _ (List.cons_ne_nil c d)] at hb
      rcases List.mem_cons.mp (List.mem_of_getLast? hb) with rfl | hb
      · rw [hk]
        rfl
      · exact hdig b hb

end Numeral

/-- A decimal number has digits only. -/
theorem mem_decimal {n : Nat} {b : UInt8} (h : b ∈ decimal n) : ∃ d, d < 10 ∧ b = digit d := by
  rw [decimal_eq_numeral] at h
  obtain ⟨d, hd, rfl⟩ := mem_numeral (by decide) h
  exact ⟨d, hd, (digit_eq_xdigit hd).symm⟩

theorem decimal_head (n : Nat) : ∃ d r, d < 10 ∧ decimal n = digit d :: r := by
  obtain ⟨d, r, hd, -, hr⟩ := @numeral_head 10 (by decide) n
  exact ⟨d, r, hd, by rw [decimal_eq_numeral, hr, digit_eq_xdigit hd]⟩

/-- A number reads back. -/
theorem strtoul_decimal {n : Nat} (h : n < 2 ^ 64) : strtoul 10 (decimal n) = (n, []) := by
  have := @strtoul_numeral 10 (by decide) (by decide) n h [] (by simp) rfl
  rwa [List.append_nil, ← decimal_eq_numeral] at this

theorem atoi_decimal {n : Nat} (h : n < 2 ^ 31) : atoi (decimal n) = n := by
  obtain ⟨d, r, hd, -, hr⟩ := @numeral_head 10 (by decide) n
  obtain ⟨-, hsp, h43, h45, -⟩ := xdigit_spec ⟨d, by omega⟩
  have hval := @digits_numeral 10 (by decide) (by decide) n
  rw [hr] at hval
  rw [decimal_eq_numeral, hr, atoi, List.dropWhile_cons_of_neg (by simp [hsp]),
    signOf_of_ne h43 h45]
  simp only [hval, Bool.false_eq_true, if_false, Nat.min_eq_left (by omega : n ≤ 2 ^ 63 - 1)]
  exact toInt32_of_lt h

/-- A decimal number other than 0 has no leading zero, so base 0 reads it as such. -/
theorem strtoul_zero_decimal {n : Nat} (h0 : 0 < n) (h : n < 2 ^ 64) :
    strtoul 0 (decimal n) = (n, []) := by
  obtain ⟨d, r, hd, hd0, hr⟩ := @numeral_head 10 (by decide) n
  obtain ⟨-, hsp, h43, h45, -⟩ := xdigit_spec ⟨d, by omega⟩
  have hbase : baseOf (xdigit d :: r) = 10 := by
    have hne : ∀ d : Fin 10, 0 < d.val → xdigit d.val ≠ 48 := by decide
    have hx : xdigit d ≠ 48 := hne ⟨d, hd⟩ (hd0 h0)
    unfold baseOf
    split
    · rename_i he
      exact absurd (List.cons.inj he).1 hx
    · rename_i he
      exact absurd (List.cons.inj he).1 hx
    · rfl
  have h10 := strtoul_decimal h
  rw [decimal_eq_numeral, hr] at h10 ⊢
  simp only [strtoul, List.dropWhile_cons_of_neg (by simp [hsp] : ¬ isspace (xdigit d) = true),
    signOf_of_ne h43 h45, hbase, if_true] at h10 ⊢
  exact h10

/-- A number in the form that base 0 takes for a hexadecimal one. -/
theorem strtoul_hex {n : Nat} (h : n < 2 ^ 64) :
    strtoul 0 (48 :: 120 :: numeral 16 n) = (n, []) := by
  obtain ⟨d, r, hd, -, hr⟩ := @numeral_head 16 (by decide) n
  have hdig := digitIn_xdigit (Nat.le_refl 16) hd
  have hval := @digits_numeral 16 (by decide) (Nat.le_refl 16) n
  rw [hr] at hval ⊢
  have hbase : baseOf (48 :: 120 :: xdigit d :: r) = 16 := by simp [baseOf, hdig]
  have hskip : skip0x 16 (48 :: 120 :: xdigit d :: r) = xdigit d :: r := by simp [skip0x, hdig]
  rw [strtoul, List.dropWhile_cons_of_neg (by decide), signOf_of_ne (by decide) (by decide)]
  simp only [if_true, hbase, hskip, List.head?_cons, Option.bind_some, hdig, Option.isNone_some,
    hval, if_neg (Nat.not_le.mpr h)]
  rfl

/-! ## Comparison -/

/-- `tolower` in the C locale. -/
def lower (b : UInt8) : UInt8 := if 65 ≤ b && b ≤ 90 then b + 32 else b

/-- `!strncasecmp(s, name, strlen(name))`. -/
def startsCI (name s : Bytes) : Bool := (s.take name.length).map lower = name.map lower

/-- Texts that differ in their first byte. -/
theorem startsCI_cons_ne {a b : UInt8} (name s : Bytes) (h : lower b ≠ lower a) :
    startsCI (a :: name) (b :: s) = false := by
  simp [startsCI, h]

/-! ## Tokens -/

section Tokens

variable {delim s p r : Bytes}

/-- `strtok_r(s, delim, &save)`: the token, and the text `save` points at afterwards. -/
def strtok (delim s : Bytes) : Option (Bytes × Bytes) :=
  match s.dropWhile (delim.contains ·) with
  | [] => none
  | c :: t =>
    some ((c :: t).takeWhile (!delim.contains ·), ((c :: t).dropWhile (!delim.contains ·)).drop 1)

/-- The words of a text: what stands between the delimiters and is not empty. -/
def words (delim s : Bytes) : List Bytes := (s.splitOnP (delim.contains ·)).filter (· ≠ [])

/-- A token is a word with delimiters in front of it, and ends at the end of the text or at a
delimiter, which is skipped. -/
def IsToken (delim s p r : Bytes) : Prop :=
  ∃ pad tail, s = pad ++ (p ++ tail) ∧ (∀ c ∈ pad, delim.contains c = true) ∧ p ≠ [] ∧
    (∀ c ∈ p, delim.contains c = false) ∧
    (tail = [] ∧ r = [] ∨ ∃ e, delim.contains e = true ∧ tail = e :: r)

theorem IsToken.strtok_eq (h : IsToken delim s p r) : strtok delim s = some (p, r) := by
  obtain ⟨pad, tail, rfl, hpad, hp, hfree, htail⟩ := h
  obtain ⟨c, q, rfl⟩ := List.exists_cons_of_ne_nil hp
  have hc : delim.contains c = false := hfree c List.mem_cons_self
  have hskip : (pad ++ (c :: q ++ tail)).dropWhile (delim.contains ·) = c :: (q ++ tail) := by
    rw [List.dropWhile_append_of_pos hpad, List.cons_append,
      List.dropWhile_cons_of_neg (by rw [hc]; simp)]
  have hfree' : ∀ x ∈ c :: q, (!delim.contains x) = true := by
    intro x hx
    rw [hfree x hx]
    rfl
  rw [strtok, hskip]
  show some ((c :: q ++ tail).takeWhile _, ((c :: q ++ tail).dropWhile _).drop 1) = _
  rw [List.takeWhile_append_of_pos hfree', List.dropWhile_append_of_pos hfree']
  rcases htail with ⟨rfl, rfl⟩ | ⟨e, he, rfl⟩
  · simp
  · have he' : (!delim.contains e) = false := by rw [he]; rfl
    simp only [List.takeWhile_cons, List.dropWhile_cons, he', Bool.false_eq_true, if_false,
      List.append_nil, List.drop_succ_cons, List.drop_zero]

theorem isToken_of_strtok (h : strtok delim s = some (p, r)) : IsToken delim s p r := by
  have hs : s.takeWhile (delim.contains ·) ++ s.dropWhile (delim.contains ·) = s :=
    List.takeWhile_append_dropWhile
  rw [strtok] at h
  cases ht : s.dropWhile (delim.contains ·) with
  | nil => rw [ht] at h; cases h
  | cons c t =>
    have hc : delim.contains c = false := by
      have hne : s.dropWhile (delim.contains ·) ≠ [] := by rw [ht]; simp
      have := List.head_dropWhile_not (delim.contains ·) hne
      simpa only [ht, List.head_cons] using this
    rw [ht] at h hs
    injection h with h
    injection h with hp hr
    refine ⟨s.takeWhile (delim.contains ·), (c :: t).dropWhile (!delim.contains ·), ?_, ?_, ?_, ?_,
      ?_⟩
    · rw [← hp, List.takeWhile_append_dropWhile, hs]
    · exact fun x hx => List.mem_takeWhile_imp hx
    · rw [← hp, List.takeWhile_cons_of_pos (by rw [hc]; rfl)]
      simp
    · intro x hx
      rw [← hp] at hx
      simpa using List.mem_takeWhile_imp hx
    · cases hd : (c :: t).dropWhile (!delim.contains ·) with
      | nil => exact .inl ⟨rfl, by rw [← hr, hd]; rfl⟩
      | cons e u =>
        have he := List.head_dropWhile_not (!delim.contains ·) (l := c :: t) (by rw [hd]; simp)
        simp only [hd, List.head_cons, Bool.not_eq_false'] at he
        exact .inr ⟨e, he, by rw [← hr, hd]; rfl⟩

theorem strtok_eq_some : strtok delim s = some (p, r) ↔ IsToken delim s p r :=
  ⟨isToken_of_strtok, IsToken.strtok_eq⟩

@[simp] theorem words_nil : words delim [] = [] := by
  simp [words]

theorem words_cons_delim {c : UInt8} (h : delim.contains c = true) :
    words delim (c :: s) = words delim s := by
  rw [words, words, List.splitOnP_cons_eq_if_modifyHead, if_pos h]
  simp

theorem words_pad {pad : Bytes} (h : ∀ c ∈ pad, delim.contains c = true) :
    words delim (pad ++ s) = words delim s := by
  induction pad with
  | nil => rfl
  | cons c pad ih =>
    rw [List.cons_append, words_cons_delim (h c List.mem_cons_self)]
    exact ih fun x hx => h x (List.mem_cons_of_mem c hx)

/-- `strtok_r` returns the first word and leaves the others. -/
theorem words_of_strtok (h : strtok delim s = some (p, r)) :
    words delim s = p :: words delim r := by
  obtain ⟨pad, tail, rfl, hpad, hp, hfree, htail⟩ := isToken_of_strtok h
  rw [words_pad hpad]
  rcases htail with ⟨rfl, rfl⟩ | ⟨e, he, rfl⟩
  · rw [List.append_nil, words, List.splitOnP_eq_singleton hfree]
    simp [hp]
  · rw [words, List.splitOnP_append_cons_of_forall_mem hfree e he]
    rw [List.filter_cons_of_pos (by simpa using hp)]
    rfl

theorem words_of_strtok_none (h : strtok delim s = none) : words delim s = [] := by
  rw [strtok] at h
  cases ht : s.dropWhile (delim.contains ·) with
  | nil =>
    have hall := List.dropWhile_eq_nil_iff.mp ht
    rw [← List.append_nil s, words_pad hall, words_nil]
  | cons c t => rw [ht] at h; cases h

theorem length_of_strtok (h : strtok delim s = some (p, r)) : r.length < s.length := by
  obtain ⟨pad, tail, rfl, -, hp, -, htail⟩ := isToken_of_strtok h
  have := List.length_pos_iff.mpr hp
  rcases htail with ⟨rfl, rfl⟩ | ⟨e, -, rfl⟩ <;> simp <;> omega

end Tokens

end VTest
