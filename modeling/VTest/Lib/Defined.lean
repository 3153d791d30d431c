import VTest.Lib.Run

/-!
# VTest.Lib.Defined

Computations without undefined behaviour. `Defined P x` says that `x` reports a failure or returns a
value with the property `P`. The rules follow the shape of a program: one for the sequence, one for
each kind of statement that may trap.

`Checked P x` allows only a failed assertion, `Yields P x` no failure at all. `UpToUb x y` says that
`y` does what `x` does wherever `x` is not undefined.
-/

namespace VTest

variable {α β : Type} {P : α → Prop} {Q : β → Prop} {x : Res α}

inductive Defined (P : α → Prop) : Res α → Prop where
  | fatal : Defined P (.error .fatal)
  | assert : Defined P (.error .assert)
  | ok {a : α} (h : P a) : Defined P (.ok a)

namespace Defined

theorem bind {f : α → Res β} (hx : Defined P x) (hf : ∀ a, P a → Defined Q (f a)) :
    Defined Q (x >>= f) := by
  cases hx with
  | fatal => exact .fatal
  | assert => exact .assert
  | ok h => exact hf _ h

theorem mono {P' : α → Prop} (hx : Defined P x) (h : ∀ a, P a → P' a) : Defined P' x := by
  cases hx with
  | fatal => exact .fatal
  | assert => exact .assert
  | ok ha => exact .ok (h _ ha)

theorem of_eq_ok (hx : Defined P x) {a : α} (h : x = .ok a) : P a := by
  subst h
  cases hx with
  | ok ha => exact ha

theorem with_eq (hx : Defined P x) : Defined (fun a => P a ∧ x = .ok a) x := by
  cases hx with
  | fatal => exact .fatal
  | assert => exact .assert
  | ok ha => exact .ok ⟨ha, rfl⟩

theorem ne_ub (hx : Defined P x) : x ≠ .error .ub := by
  rintro rfl
  cases hx

theorem check_bind {b : Bool} {f : Unit → Res β} (h : b = true → Defined Q (f ())) :
    Defined Q (check b >>= f) := by
  cases b with
  | true => exact h rfl
  | false => exact .assert

theorem fatalIf_bind {b : Bool} {f : Unit → Res β} (h : b = false → Defined Q (f ())) :
    Defined Q (fatalIf b >>= f) := by
  cases b with
  | true => exact .fatal
  | false => exact h rfl

theorem poke {m b : Bytes} {off : Nat} (h : off + b.length ≤ m.length) :
    Defined (fun m' => m'.length = m.length) (poke m off b) := by
  rw [VTest.poke, if_pos h]
  exact .ok (length_put h)

/-- A run is defined if its steps are, wherever they start from what the steps before them left. -/
theorem run {S A : Type} {step : S → A → Res S} {good : S → A → Prop} {I : S → Prop}
    (hstep : ∀ s a, I s → good s a → Defined I (step s a)) :
    ∀ (l : List A) (s : S), I s → Along step good s l → Defined I (run step s l) := by
  intro l
  induction l with
  | nil => intro s hi _; exact .ok hi
  | cons a l ih =>
    intro s hi hal
    have hfirst : Defined (fun s' => I s' ∧ step s a = .ok s') (step s a) :=
      (hstep s a hi hal.1).with_eq
    exact hfirst.bind fun s' hs' => ih s' hs'.1 (hal.2 s' hs'.2)

end Defined

inductive Checked (P : α → Prop) : Res α → Prop where
  | assert : Checked P (.error .assert)
  | ok {a : α} (h : P a) : Checked P (.ok a)

namespace Checked

theorem bind {f : α → Res β} (hx : Checked P x) (hf : ∀ a, P a → Checked Q (f a)) :
    Checked Q (x >>= f) := by
  cases hx with
  | assert => exact .assert
  | ok h => exact hf _ h

theorem check_bind {b : Bool} {f : Unit → Res β} (h : b = true → Checked Q (f ())) :
    Checked Q (check b >>= f) := by
  cases b with
  | true => exact h rfl
  | false => exact .assert

theorem exists_ok (hx : Checked P x) (h : x ≠ .error .assert) : ∃ a, x = .ok a ∧ P a := by
  cases hx with
  | assert => exact absurd rfl h
  | ok ha => exact ⟨_, rfl, ha⟩

end Checked

/-- The same, where the first is defined. -/
def UpToUb (x y : Res α) : Prop := x = .error .ub ∨ x = y

namespace UpToUb

theorem refl (x : Res α) : UpToUb x x := .inr rfl

theorem bind {x y : Res α} {f g : α → Res β} (h : UpToUb x y) (hf : ∀ a, UpToUb (f a) (g a)) :
    UpToUb (x >>= f) (y >>= g) := by
  rcases h with rfl | rfl
  · exact .inl rfl
  · cases x with
    | error e => exact .inr rfl
    | ok a => exact hf a

theorem eq_ok {x y : Res α} (h : UpToUb x y) {a : α} (hx : x = .ok a) : y = .ok a := by
  rcases h with h | h
  · rw [hx] at h
    cases h
  · exact h.symm.trans hx

end UpToUb

/-- `x` returns a value with the property `P`. -/
inductive Yields (P : α → Prop) : Res α → Prop where
  | ok {a : α} (h : P a) : Yields P (.ok a)

namespace Yields

theorem bind {f : α → Res β} (hx : Yields P x) (hf : ∀ a, P a → Yields Q (f a)) :
    Yields Q (x >>= f) := by
  cases hx with
  | ok h => exact hf _ h

theorem mono {P' : α → Prop} (hx : Yields P x) (h : ∀ a, P a → P' a) : Yields P' x := by
  cases hx with
  | ok ha => exact .ok (h _ ha)

theorem check_bind {b : Bool} {f : Unit → Res β} (hb : b = true) (h : Yields Q (f ())) :
    Yields Q (check b >>= f) := by
  subst hb
  exact h

theorem exists_ok (hx : Yields P x) : ∃ a, x = .ok a ∧ P a := by
  cases hx with
  | ok h => exact ⟨_, rfl, h⟩

theorem run {S A : Type} {step : S → A → Res S} {I : S → Prop} {l : List A}
    (hstep : ∀ s, ∀ a ∈ l, I s → Yields I (step s a)) (s : S) (h : I s) :
    Yields I (VTest.run step s l) := by
  induction l generalizing s with
  | nil => exact .ok h
  | cons a l ih =>
    refine (hstep s a List.mem_cons_self h).bind fun s' h' => ?_
    exact ih (fun s b hb => hstep s b (List.mem_cons_of_mem a hb)) s' h'

end Yields

end VTest
