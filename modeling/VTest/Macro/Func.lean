import VTest.Lib.Text

/-!
# VTest.Macro.Func

The macros that are functions: `macro_func_date` and `macro_func_string` of `vtc_main.c`, with the
number parser of `vnum.c` and the string buffer of fixed size of `vsb.c`. Memory is never short.

* `repeatLoop_eq`: the loop of `repeat` fills the buffer or trips over its end.
* `string_repeat_iff`: when the text comes out the given number of times.
-/

namespace VTest
namespace Macro

/-! ## Numbers -/

inductive SfErr where
  | noDigits
  | fatnum
  deriving DecidableEq, Repr

def SfErr.text : SfErr → Bytes
  | .noDigits => ascii "Invalid number"
  | .fatnum => ascii "Too many digits"

/-- `vct_isows`. -/
def isows (b : UInt8) : Bool := b = 32 || b = 9

/-- What `SF_Parse_Integer` returns, the error it sets, and the text it leaves. -/
structure SfInt where
  value : Int
  err : Option SfErr
  rest : Bytes
  deriving DecidableEq, Repr

/-- The loop over the digits in `sf_parse_int`, with `ndig` and `retval`, and what follows it. -/
def sfDigits (maxdig sign : Int) : Nat → Int → Bytes → SfInt
  | ndig, retval, [] =>
    { value := retval * sign, err := if ndig = 0 then some .noDigits else none, rest := [] }
  | ndig, retval, c :: t =>
    if 48 ≤ c && c ≤ 57 then
      if maxdig < ndig + 1 then { value := retval * sign, err := some .fatnum, rest := c :: t }
      else sfDigits maxdig sign (ndig + 1) (retval * 10 + (c.toNat - 48 : Nat)) t
    else if ndig = 0 then { value := retval * sign, err := some .noDigits, rest := c :: t }
    else { value := retval * sign, err := none, rest := (c :: t).dropWhile isows }

def sfParseInteger (s : Bytes) : SfInt :=
  match s.dropWhile isows with
  | 45 :: t => sfDigits 15 (-1) 0 0 t
  | t => sfDigits 15 1 0 0 t

/-! ## Buffers -/

/-- A `struct vsb` of fixed size: `s_size`, and `s_buf` up to `s_len`. -/
structure Vsb where
  size : Int
  data : Bytes := []
  deriving DecidableEq, Repr

/-- `VSB_init`. The length is an `ssize_t`, and becomes an `int` in `VSB_newbuf`. -/
def vsbInit (length : Nat) : Res Vsb := do
  check (length < 2 ^ 63)
  let size := toInt32 length
  check (1 < size)
  return { size := size }

/-- `assert_VSB_integrity`. -/
def Vsb.integrity (v : Vsb) : Res Unit := check (v.data.length < v.size)

/-- `AZ(VSB_cat(vsb, s))`. -/
def vsbCat (v : Vsb) (s : Bytes) : Res Vsb := do
  v.integrity
  check (s.length ≤ v.size - (v.data.length + 1))
  return { v with data := v.data ++ s }

/-- `AZ(VSB_finish(vsb))` and `VSB_fini(vsb)`: the string in the buffer. -/
def vsbFinish (v : Vsb) : Res Bytes := do
  v.integrity
  return v.data

/-! ## Functions -/

/-- A `macro_f` on `argv[1]` and the arguments behind it: what it returns, and `*err`. -/
abbrev MacroF := List Bytes → Res (Option Bytes × Option Bytes)

/-- `macro_func_date`, at the time `now`. -/
def macroFuncDate (now : Bytes) : MacroF := fun argv => do
  check (1 ≤ argv.length)
  if 1 < argv.length then return (none, some (ascii "macro does not take arguments"))
  else return (some now, none)

/-- `while (i > 0) { AZ(VSB_cat(vsb, argv[3])); i--; }` -/
def repeatLoop (s : Bytes) : Nat → Vsb → Res Vsb
  | 0, v => .ok v
  | i + 1, v => do
    let v ← vsbCat v s
    repeatLoop s i v

/-- From the size of the buffer, a `size_t`, to the string in it. -/
def vsbRepeat (s : Bytes) (i : Nat) : Res Bytes := do
  let v ← vsbInit ((s.length * i + 1) % 2 ^ 64)
  let v ← repeatLoop s i v
  vsbFinish v

/-- `int i = SF_Parse_Integer(&p, err)`. -/
def narrow (v : Int) : Int := toInt32 (v % 2 ^ 64).toNat

def macroFuncStringRepeat : MacroF
  | [_, _, n, s] =>
    let r := sfParseInteger n
    match r.err with
    | some e => .ok (none, some e.text)
    | none =>
      let i := narrow r.value
      if r.rest ≠ [] ∨ i < 0 then .ok (none, some (ascii "invalid number of repetitions"))
      else do
        let res ← vsbRepeat s i.toNat
        return (some res, none)
  | _ => .ok (none, some (ascii "repeat takes 2 arguments"))

def macroFuncString : MacroF := fun argv => do
  check (1 ≤ argv.length)
  match argv with
  | _ :: action :: _ =>
    if action = ascii "repeat" then macroFuncStringRepeat argv
    else return (none, some (ascii "unknown action"))
  | _ => return (none, some (ascii "missing action"))

/-! ## Repetition -/

/-- So many copies of the text. -/
def copies (i : Nat) (s : Bytes) : Bytes := (List.replicate i s).flatten

theorem copies_succ (i : Nat) (s : Bytes) : copies (i + 1) s = s ++ copies i s := by
  rw [copies, List.replicate_succ, List.flatten_cons]
  rfl

theorem length_copies (i : Nat) (s : Bytes) : (copies i s).length = i * s.length := by
  rw [copies, List.length_flatten, List.map_replicate, List.sum_replicate, smul_eq_mul]

/-- The copies fit, with the NUL behind them, or one of them trips over the end of the buffer. -/
theorem repeatLoop_eq (s : Bytes) (i : Nat) (v : Vsb) (h : v.data.length < v.size) :
    repeatLoop s i v =
      if v.data.length + i * s.length < v.size then .ok { v with data := v.data ++ copies i s }
      else .error .assert := by
  induction i generalizing v with
  | zero => simp [repeatLoop, copies, h]
  | succ i ih =>
    have hprod : ((i + 1 : Nat) : Int) * s.length = s.length + i * s.length := by
      push_cast
      ring
    rw [repeatLoop, vsbCat, Vsb.integrity, decide_eq_true h, check_true, ok_bind, hprod]
    by_cases hs : (v.data.length : Int) + s.length < v.size
    · have hroom : (s.length : Int) ≤ v.size - (v.data.length + 1) := by omega
      have hlen : ((v.data ++ s).length : Int) = v.data.length + s.length := by
        rw [List.length_append, Nat.cast_add]
      rw [decide_eq_true hroom, check_true, ok_bind]
      refine (ih { v with data := v.data ++ s } (by rw [hlen]; exact hs)).trans ?_
      rw [hlen, copies_succ, ← Int.add_assoc, List.append_assoc]
    · have hroom : ¬(s.length : Int) ≤ v.size - (v.data.length + 1) := by omega
      have hpos : (0 : Int) ≤ i * s.length := by positivity
      rw [decide_eq_false hroom, check_false, error_bind, error_bind, if_neg (by omega)]

/-- An error is set, or the text comes out `n` times. -/
def Repeats (n : Int) (s : Bytes) : Res (Option Bytes × Option Bytes) → Prop
  | .ok (none, some _) => True
  | .ok (some v, none) => 0 ≤ n ∧ v = copies n.toNat s
  | _ => False

/-- The buffer is as large as the `int` that its size becomes. -/
theorem vsbInit_eq (l : Nat) (h : l < 2 ^ 63) :
    vsbInit l = if 1 < toInt32 l then .ok { size := toInt32 l } else .error .assert := by
  rw [vsbInit, decide_eq_true h, check_true, ok_bind]
  by_cases hs : 1 < toInt32 l
  · simp only [decide_eq_true hs, check_true, ok_bind, if_pos hs]
    rfl
  · simp only [decide_eq_false hs, check_false, error_bind, if_neg hs]

theorem toInt32_le (v : Nat) : toInt32 v ≤ v := by
  have := Nat.mod_le v (2 ^ 32)
  rw [toInt32]
  split <;> omega

theorem narrow_of_lt {v : Int} (h0 : 0 ≤ v) (h : v < 2 ^ 31) : narrow v = v := by
  rw [narrow, Int.emod_eq_of_lt h0 (by omega), toInt32_of_lt (by omega)]
  omega

/-- The copies are made just if there is something to copy and its size is an `int`. -/
theorem vsbRepeat_eq (s : Bytes) (k : Nat) :
    vsbRepeat s k =
      if 0 < k * s.length ∧ k * s.length + 1 < 2 ^ 31 then .ok (copies k s)
      else .error .assert := by
  rw [vsbRepeat, Nat.mul_comm s.length k]
  have hlen := length_copies k s
  have hcast : (k : Int) * s.length = (k * s.length : Nat) := (Nat.cast_mul k s.length).symm
  generalize k * s.length = t at *
  have hle := Nat.mod_le (t + 1) (2 ^ 64)
  have hsmall : t + 1 < 2 ^ 31 → (t + 1) % 2 ^ 64 = t + 1 := fun h => Nat.mod_eq_of_lt (by omega)
  generalize (t + 1) % 2 ^ 64 = l at *
  by_cases hl : l < 2 ^ 63
  · have hlt := toInt32_lt l
    have hint := toInt32_le l
    have hexact : t + 1 < 2 ^ 31 → toInt32 l = (t + 1 : Nat) := fun h => by
      rw [hsmall h, toInt32_of_lt h]
    rw [vsbInit_eq l hl]
    by_cases h1 : 1 < toInt32 l
    · rw [if_pos h1, ok_bind, repeatLoop_eq s k { size := toInt32 l } (by simp; omega)]
      simp only [List.length_nil, Nat.cast_zero, Int.zero_add, hcast, List.nil_append]
      by_cases h2 : (t : Int) < toInt32 l
      · have hcond : 0 < t ∧ t + 1 < 2 ^ 31 := by omega
        have hint : decide ((copies k s).length < toInt32 l) = true := by
          rw [hlen]
          exact decide_eq_true h2
        rw [if_pos h2, if_pos hcond, ok_bind, vsbFinish, Vsb.integrity, hint, check_true, ok_bind]
        rfl
      · rw [if_neg h2, error_bind, if_neg fun hc => h2 (by rw [hexact hc.2]; omega)]
    · rw [if_neg h1, error_bind, if_neg fun hc => h1 (by rw [hexact hc.2]; omega)]
  · rw [vsbInit, decide_eq_false hl, check_false, error_bind, error_bind,
      if_neg fun hc => hl (by rw [hsmall hc.2]; omega)]

/-- What the function makes of an integer and a text. -/
theorem macroFuncStringRepeat_eq {n : Bytes} (herr : (sfParseInteger n).err = none)
    (hrest : (sfParseInteger n).rest = []) (name action s : Bytes) :
    macroFuncStringRepeat [name, action, n, s] =
      if narrow (sfParseInteger n).value < 0 then
        .ok (none, some (ascii "invalid number of repetitions"))
      else if 0 < (narrow (sfParseInteger n).value).toNat * s.length ∧
          (narrow (sfParseInteger n).value).toNat * s.length + 1 < 2 ^ 31 then
        .ok (some (copies (narrow (sfParseInteger n).value).toNat s), none)
      else .error .assert := by
  rw [macroFuncStringRepeat]
  simp only [herr, hrest, ne_eq, not_true_eq_false, false_or, vsbRepeat_eq]
  split
  · rfl
  · split <;> rfl

/-- An integer text of the size of an `int` that makes for a text of the size of an `int` is what
the function is good for: with no copies or no text the buffer is too small, and a larger integer is
cut to its low half. -/
theorem string_repeat_iff {n : Bytes} (herr : (sfParseInteger n).err = none)
    (hrest : (sfParseInteger n).rest = []) (name action s : Bytes) :
    Repeats (sfParseInteger n).value s (macroFuncStringRepeat [name, action, n, s]) ↔
      narrow (sfParseInteger n).value < 0 ∨
        0 < (sfParseInteger n).value ∧ s ≠ [] ∧
          (sfParseInteger n).value * s.length + 1 < 2 ^ 31 := by
  rw [macroFuncStringRepeat_eq herr hrest]
  generalize (sfParseInteger n).value = v
  by_cases hneg : narrow v < 0
  · rw [if_pos hneg]
    exact iff_of_true trivial (.inl hneg)
  · rw [if_neg hneg]
    have hpos : s ≠ [] → 0 < s.length := List.length_pos_of_ne_nil
    constructor
    · intro h
      split at h <;> rename_i hc
      · obtain ⟨h0, hcopies⟩ := h
        have hs : s ≠ [] := by
          rintro rfl
          simp at hc
        have hlen := congrArg List.length hcopies
        rw [length_copies, length_copies] at hlen
        have heq : (narrow v).toNat = v.toNat := Nat.eq_of_mul_eq_mul_right (hpos hs) hlen
        rw [heq] at hc
        have hv : (v.toNat : Int) = v := Int.toNat_of_nonneg h0
        have hv0 : 0 < v.toNat := Nat.pos_of_mul_pos_right hc.1
        refine .inr ⟨by omega, hs, ?_⟩
        rw [← hv]
        exact_mod_cast hc.2
      · exact h.elim
    · rintro (h | ⟨h0, hs, hsize⟩)
      · exact absurd h hneg
      · have hs := hpos hs
        have hlt : v < 2 ^ 31 := by nlinarith
        have hv : (v.toNat : Int) = v := Int.toNat_of_nonneg (by omega)
        rw [narrow_of_lt (by omega) hlt]
        have hc : 0 < v.toNat * s.length ∧ v.toNat * s.length + 1 < 2 ^ 31 := by
          refine ⟨Nat.mul_pos (by omega) hs, ?_⟩
          rw [← hv] at hsize
          exact_mod_cast hsize
        rw [if_pos hc]
        exact ⟨by omega, rfl⟩

theorem string_repeat_three :
    Repeats 3 (ascii "ab")
      (macroFuncStringRepeat [ascii "string", ascii "repeat", ascii "3", ascii "ab"]) := by
  have hparse : sfParseInteger (ascii "3") = ⟨3, none, []⟩ := by decide +kernel
  have hiff := @string_repeat_iff (ascii "3") (by rw [hparse]) (by rw [hparse])
    (ascii "string") (ascii "repeat") (ascii "ab")
  rw [hparse] at hiff
  exact hiff.mpr (.inr ⟨by decide, by decide, by decide⟩)

/-- No copies, or copies of no text: an assertion fails. One copy more than an `unsigned` holds: the
text comes out once. -/
theorem string_repeat_wrong :
    macroFuncStringRepeat [ascii "string", ascii "repeat", ascii "0", ascii "a"] =
        .error .assert ∧
      macroFuncStringRepeat [ascii "string", ascii "repeat", ascii "2", []] = .error .assert ∧
      macroFuncStringRepeat [ascii "string", ascii "repeat", ascii "4294967297", ascii "a"] =
        .ok (some (ascii "a"), none) := by
  decide +kernel

end Macro
end VTest
