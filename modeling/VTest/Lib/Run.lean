import VTest.Lib.Bytes

/-!
# VTest.Lib.Run

Runs of a machine whose step may trap. `run step s l` takes the actions of `l` one after the
other; `Along step ok s l` says that every step of that run meets `ok` in the state it starts from.

* `run_preserves`: what every step keeps, every run keeps.
* `run_keeps`: the same without a condition on the steps.
* `run_total`: if moreover every step that meets `ok` completes, then the whole run does.
* `run_refines`: if every step does what an abstract one does, then the whole run does.

`Path R s l s'` is the relational version: the elements of `l` lead from `s` to `s'`.
-/

namespace VTest

variable {S A : Type} {step : S → A → Res S} {ok : S → A → Prop} {I : S → Prop}

def run (step : S → A → Res S) (s : S) (l : List A) : Res S := l.foldlM step s

@[simp] theorem run_nil (s : S) : run step s [] = .ok s := rfl

@[simp] theorem run_cons (s : S) (a : A) (l : List A) :
    run step s (a :: l) = step s a >>= fun s' => run step s' l := rfl

theorem run_singleton (s : S) (a : A) : run step s [a] = step s a := by
  rw [run_cons]
  cases step s a <;> rfl

theorem run_append (s : S) (l l' : List A) :
    run step s (l ++ l') = run step s l >>= fun s' => run step s' l' := by
  rw [run, List.foldlM_append]
  rfl

/-- Every step of the run meets `ok`, as far as the run gets. -/
def Along (step : S → A → Res S) (ok : S → A → Prop) : S → List A → Prop
  | _, [] => True
  | s, a :: l => ok s a ∧ ∀ s', step s a = .ok s' → Along step ok s' l

theorem Along.of_forall {l : List A} (h : ∀ a ∈ l, ∀ s, ok s a) (s : S) : Along step ok s l := by
  induction l generalizing s with
  | nil => trivial
  | cons a l ih =>
    exact ⟨h a List.mem_cons_self s,
      fun s' _ => ih (fun b hb => h b (List.mem_cons_of_mem a hb)) s'⟩

theorem Along.cons_of_eq {s : S} (s1 : S) {a : A} {l : List A} (h : step s a = .ok s1)
    (ha : ok s a) (hl : Along step ok s1 l) : Along step ok s (a :: l) := by
  refine ⟨ha, fun s' h' => ?_⟩
  cases h.symm.trans h'
  exact hl

theorem Along.snoc_iff (l : List A) (a : A) (s : S) : Along step ok s (l ++ [a]) ↔
    Along step ok s l ∧ ∀ s', run step s l = .ok s' → ok s' a := by
  induction l generalizing s with
  | nil => simp [Along]
  | cons b l ih =>
    simp only [List.cons_append, Along, ih, run_cons, bind_eq_ok]
    constructor
    · rintro ⟨hb, h⟩
      exact ⟨⟨hb, fun s1 h1 => (h s1 h1).1⟩, fun s' ⟨s1, h1, h2⟩ => (h s1 h1).2 s' h2⟩
    · rintro ⟨⟨hb, h⟩, hl⟩
      exact ⟨hb, fun s1 h1 => ⟨h s1 h1, fun s' h2 => hl s' ⟨s1, h1, h2⟩⟩⟩

theorem Along.mono {good : S → A → Prop} (himp : ∀ s a, ok s a → good s a) {l : List A} {s : S}
    (h : Along step ok s l) : Along step good s l := by
  induction l generalizing s with
  | nil => trivial
  | cons a l ih => exact ⟨himp s a h.1, fun s' hs' => ih (h.2 s' hs')⟩

theorem Along.left {l l' : List A} {s : S} (h : Along step ok s (l ++ l')) : Along step ok s l := by
  induction l generalizing s with
  | nil => trivial
  | cons a l ih => exact ⟨h.1, fun s' hs' => ih (h.2 s' hs')⟩

theorem run_preserves (hstep : ∀ s a s', I s → ok s a → step s a = .ok s' → I s') :
    ∀ (l : List A) (s s' : S), I s → Along step ok s l → run step s l = .ok s' → I s' := by
  intro l
  induction l with
  | nil =>
    intro s s' hi _ h
    cases h
    exact hi
  | cons a l ih =>
    intro s s' hi hal h
    obtain ⟨s1, h1, h2⟩ := bind_eq_ok.mp h
    exact ih s1 s' (hstep s a s1 hi hal.1 h1) (hal.2 s1 h1) h2

theorem run_keeps (hstep : ∀ s a s', I s → step s a = .ok s' → I s') :
    ∀ (l : List A) (s s' : S), I s → run step s l = .ok s' → I s' := by
  intro l
  induction l with
  | nil =>
    intro s s' hi h
    cases h
    exact hi
  | cons a l ih =>
    intro s s' hi h
    obtain ⟨s1, h1, h2⟩ := bind_eq_ok.mp h
    exact ih s1 s' (hstep s a s1 hi h1) h2

theorem run_total (hstep : ∀ s a, I s → ok s a → ∃ s', step s a = .ok s' ∧ I s') :
    ∀ (l : List A) (s : S), I s → Along step ok s l → ∃ s', run step s l = .ok s' ∧ I s' := by
  intro l
  induction l with
  | nil => intro s hi _; exact ⟨s, rfl, hi⟩
  | cons a l ih =>
    intro s hi hal
    obtain ⟨s1, h1, hi1⟩ := hstep s a hi hal.1
    obtain ⟨s2, h2, hi2⟩ := ih s1 hi1 (hal.2 s1 h1)
    exact ⟨s2, by rw [run_cons, h1, ok_bind, h2], hi2⟩

/-- A run refines the fold of what its steps refine. -/
theorem run_refines {T : Type} {spec : T → A → T} {R : S → T → Prop}
    (hstep : ∀ s t a, R s t → ok s a → ∃ s', step s a = .ok s' ∧ R s' (spec t a)) :
    ∀ (l : List A) (s : S) (t : T), R s t → Along step ok s l →
      ∃ s', run step s l = .ok s' ∧ R s' (l.foldl spec t) := by
  intro l
  induction l with
  | nil => intro s t hr _; exact ⟨s, rfl, hr⟩
  | cons a l ih =>
    intro s t hr hal
    obtain ⟨s1, h1, hr1⟩ := hstep s t a hr hal.1
    obtain ⟨s2, h2, hr2⟩ := ih s1 (spec t a) hr1 (hal.2 s1 h1)
    exact ⟨s2, by rw [run_cons, h1, ok_bind, h2], hr2⟩

/-! ## Paths -/

section Path

variable {R : S → A → S → Prop}

/-- The elements of the list lead from one state to the other. -/
inductive Path (R : S → A → S → Prop) : S → List A → S → Prop where
  | nil {s : S} : Path R s [] s
  | cons {s s1 s2 : S} {a : A} {l : List A} (h : R s a s1) (t : Path R s1 l s2) :
      Path R s (a :: l) s2

theorem Path.snoc {s s1 s2 : S} {l : List A} {a : A} (p : Path R s l s1) (h : R s1 a s2) :
    Path R s (l ++ [a]) s2 := by
  induction p with
  | nil => exact .cons h .nil
  | cons h' _ ih => exact .cons h' (ih h)

theorem Path.still {s : S} {l : List A} (h : ∀ a ∈ l, R s a s) : Path R s l s := by
  induction l with
  | nil => exact .nil
  | cons a l ih =>
    exact .cons (h a List.mem_cons_self) (ih fun b hb => h b (List.mem_cons_of_mem a hb))

theorem Path.keeps {s s' : S} {l : List A} (p : Path R s l s')
    (hstep : ∀ s a s', I s → R s a s' → I s') (hi : I s) : I s' := by
  induction p with
  | nil => exact hi
  | cons h _ ih => exact ih (hstep _ _ _ hi h)

/-- A path of elements that move no state stays where it is. -/
theorem Path.stays {s s' : S} {l : List A} (p : Path R s l s') (hi : I s)
    (h : ∀ a ∈ l, ∀ s s', I s → R s a s' → s' = s) : s' = s := by
  induction p with
  | nil => rfl
  | @cons s s1 s2 a l ha _ ih =>
    cases h a List.mem_cons_self s s1 hi ha
    exact ih hi fun b hb => h b (List.mem_cons_of_mem a hb)

/-- If a state has at most one way to go on, then the longer one of two paths continues the shorter
one. -/
theorem Path.split {s s1 s2 : S} {l l' : List A} (p : Path R s l s1) (q : Path R s l' s2)
    (hdet : ∀ s a s1 b s2, R s a s1 → R s b s2 → a = b ∧ s1 = s2) (hle : l.length ≤ l'.length) :
    ∃ k, l' = l ++ k ∧ Path R s1 k s2 := by
  induction p generalizing l' with
  | nil => exact ⟨l', rfl, q⟩
  | cons h _ ih =>
    cases q with
    | nil => cases hle
    | cons h' t' =>
      obtain ⟨rfl, rfl⟩ := hdet _ _ _ _ _ h h'
      obtain ⟨k, rfl, hk⟩ := ih t' (Nat.le_of_succ_le_succ hle)
      exact ⟨k, rfl, hk⟩

end Path

end VTest
