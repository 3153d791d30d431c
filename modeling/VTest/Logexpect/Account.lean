import VTest.Logexpect.Model

/-!
# VTest.Logexpect.Account

What a list of tests says about a log, without cursor and marks.

A `Choice` pairs the tests that were met with the places of the records that met them. From it
alone follow the test that is waited for (`Due`), the alternatives to it (`Open`) and the fail
specifications that are in force (`Active`).

* `Progress tests recs ch`: the records are as the tests want them so far, and `ch` is how.
* `Offends`: a record that the tests do not allow. A record that neither offends nor lets the
  progress go on comes after the end (`Step.not_offends`, `Progress.not_violated`).
* `Account tests recs ch`: `ch` accounts for all tests; `Progress.account` reads it off a progress
  that is complete.
-/

namespace VTest
namespace Logexpect

variable {Vre : Type}

/-- A pair `(i, p)`: test number `i` is met by record number `p`. -/
abbrev Choice := List (Nat × Nat)

def Taken (ch : Choice) (i : Nat) : Prop := i ∈ ch.map Prod.fst

/-- The part of the choice that was made when record `p` arrived. -/
def Choice.before (ch : Choice) (p : Nat) : Choice := ch.filter fun e => e.2 < p

/-- The place after the last record that was chosen. -/
def Choice.upTo (ch : Choice) : Nat :=
  match ch.getLast? with
  | none => 0
  | some e => e.2 + 1

/-- What `=` stands for after a choice. -/
def lastOf (recs : List Record) (ch : Choice) : Last :=
  match ch.getLast? with
  | none => {}
  | some e =>
    match recs[e.2]? with
    | none => {}
    | some r => r.last

def Skip.isExpect : Skip → Bool
  | .num _ | .any | .alt => true
  | _ => false

def kind (tests : List (Test Vre)) (i : Nat) : Option Skip := tests[i]?.map (·.skipMax)

def Expects (tests : List (Test Vre)) (i : Nat) : Prop :=
  ∃ k, kind tests i = some k ∧ k.isExpect = true

/-- The tests from one place to the other are alternatives, all of them. -/
def Block (tests : List (Test Vre)) (i j : Nat) : Prop :=
  ∀ k, i ≤ k ∧ k ≤ j ∨ j ≤ k ∧ k ≤ i → kind tests k = some .alt

/-- All that is expected before test `i` is met. -/
def Settled (tests : List (Test Vre)) (ch : Choice) (i : Nat) : Prop :=
  ∀ j, j < i → Expects tests j → Taken ch j

/-- The first test that is expected and not met. -/
def Due (tests : List (Test Vre)) (ch : Choice) (i : Nat) : Prop :=
  Expects tests i ∧ ¬Taken ch i ∧ Settled tests ch i

/-- A test that the next record may meet: the one that is due, or an alternative to it. -/
def Open (tests : List (Test Vre)) (ch : Choice) (i : Nat) : Prop :=
  ¬Taken ch i ∧ ∃ d, Due tests ch d ∧ (i = d ∨ Block tests d i)

/-- A fail specification that was added and not cleared. -/
def Active (tests : List (Test Vre)) (ch : Choice) (f : Nat) : Prop :=
  kind tests f = some .fail ∧ Settled tests ch f ∧
    ∀ c, f < c → kind tests c = some .clear → ¬Settled tests ch c

def Complete (tests : List (Test Vre)) (ch : Choice) : Prop :=
  (∀ d, ¬Due tests ch d) ∧ ∀ f, ¬Active tests ch f

/-- The number of records that the skip field of a test allows before the one that meets it. -/
def Skip.allows : Skip → Nat → Prop
  | .num n, k => k ≤ n
  | .any, _ => True
  | _, k => k = 0

section

variable (vreMatch : Vre → Bytes → Bool) (tests : List (Test Vre))

def OkAt (last : Last) (i : Nat) (r : Record) : Prop :=
  ∃ t, tests[i]? = some t ∧ t.ok vreMatch last r = true

/-- What a record that is allowed does to a choice. -/
inductive Step (recs : List Record) (ch : Choice) (r : Record) : Choice → Prop where
  | skip {d : Nat} {t : Test Vre} (hd : Due tests ch d) (ht : tests[d]? = some t)
      (hok : t.ok vreMatch (lastOf recs ch) r = false)
      (hs : t.skips (lastOf recs ch) (recs.length - ch.upTo) r = true) : Step recs ch r ch
  | take {i : Nat} (hi : Open tests ch i) (hok : OkAt vreMatch tests (lastOf recs ch) i r)
      (hmin : ∀ j, j < i → Open tests ch j → ¬OkAt vreMatch tests (lastOf recs ch) j r) :
      Step recs ch r (ch ++ [(i, recs.length)])
  | wait {f : Nat} (hd : ∀ d, ¬Due tests ch d) (hf : Active tests ch f) : Step recs ch r ch

inductive Progress : List Record → Choice → Prop where
  | nil : Progress [] []
  | snoc {recs : List Record} {ch ch' : Choice} {r : Record} (hp : Progress recs ch)
      (hf : ∀ f, Active tests ch f → ¬OkAt vreMatch tests (lastOf recs ch) f r)
      (hs : Step vreMatch tests recs ch r ch') : Progress (recs ++ [r]) ch'

/-- The record meets a fail specification, or it does not meet what is expected and may not be
skipped either. -/
def Offends (recs : List Record) (ch : Choice) (r : Record) : Prop :=
  (∃ f, Active tests ch f ∧ OkAt vreMatch tests (lastOf recs ch) f r) ∨
    ∃ d t, Due tests ch d ∧ tests[d]? = some t ∧
      (∀ i, Open tests ch i → ¬OkAt vreMatch tests (lastOf recs ch) i r) ∧
      t.skips (lastOf recs ch) (recs.length - ch.upTo) r = false

/-- Some record of the log is one that the tests do not allow. -/
def Violated (recs : List Record) : Prop :=
  ∃ pre r post ch, recs = pre ++ r :: post ∧ Progress vreMatch tests pre ch ∧
    Offends vreMatch tests pre ch r

/-- The choice accounts for all tests. -/
structure Account (recs : List Record) (ch : Choice) : Prop where
  /-- The records are chosen in the order of the log. -/
  increasing : (ch.map Prod.snd).Pairwise (· < ·)
  /-- Every test that expects a record has one, and only one. -/
  each : ∀ i, Expects tests i ↔ Taken ch i
  once : (ch.map Prod.fst).Nodup
  /-- The tests are met in the order of the list, but for the alternatives of one block. -/
  order : ch.Pairwise fun a b => a.1 < b.1 ∨ Block tests a.1 b.1
  /-- The record meets the test, and not too many were skipped before it. -/
  met : ∀ i p, (i, p) ∈ ch → ∃ t r, tests[i]? = some t ∧ recs[p]? = some r ∧
    t.ok vreMatch (lastOf recs (ch.before p)) r = true ∧
    t.skipMax.allows (p - (ch.before p).upTo)
  /-- No record meets a fail specification that is active when it arrives. -/
  unfailed : ∀ p r f, recs[p]? = some r → Active tests (ch.before p) f →
    ¬OkAt vreMatch tests (lastOf recs (ch.before p)) f r
  /-- No fail specification is active at the end. -/
  cleared : ∀ f, ¬Active tests ch f

end

/-! ## Choices -/

section

variable {tests : List (Test Vre)} {ch : Choice} {recs : List Record}

theorem taken_append {i j p : Nat} : Taken (ch ++ [(i, p)]) j ↔ Taken ch j ∨ j = i := by
  simp [Taken]

theorem Settled.append {i j p : Nat} (h : Settled tests ch j) : Settled tests (ch ++ [(i, p)]) j :=
  fun k hk he => taken_append.mpr (.inl (h k hk he))

theorem Settled.mono {i j : Nat} (h : Settled tests ch j) (hij : i ≤ j) : Settled tests ch i :=
  fun k hk he => h k (by omega) he

theorem Due.settled_iff {d i : Nat} (h : Due tests ch d) : Settled tests ch i ↔ i ≤ d := by
  constructor
  · intro hs
    by_contra hlt
    exact h.2.1 (hs d (by omega) h.1)
  · exact fun hi => h.2.2.mono hi

theorem Due.unique {d d' : Nat} (h : Due tests ch d) (h' : Due tests ch d') : d = d' := by
  have := h.settled_iff.mp h'.2.2
  have := h'.settled_iff.mp h.2.2
  omega

theorem exists_due {i : Nat} (he : Expects tests i) (ht : ¬Taken ch i) : ∃ d, Due tests ch d := by
  induction i using Nat.strong_induction_on with
  | _ i ih =>
    by_cases hs : Settled tests ch i
    · exact ⟨i, he, ht, hs⟩
    · simp only [Settled, not_forall] at hs
      obtain ⟨j, hj, hej, htj⟩ := hs
      exact ih j hj hej htj

theorem Block.self_alt {i j : Nat} (h : Block tests i j) : kind tests i = some .alt :=
  h i (by omega)

theorem Block.alt {i j : Nat} (h : Block tests i j) : kind tests j = some .alt :=
  h j (by omega)

theorem Block.symm {i j : Nat} (h : Block tests i j) : Block tests j i :=
  fun k hk => h k hk.symm

theorem Block.trans {i j k : Nat} (h : Block tests i j) (h' : Block tests j k) :
    Block tests i k := by
  intro x hx
  by_cases hij : i ≤ x ∧ x ≤ j ∨ j ≤ x ∧ x ≤ i
  · exact h x hij
  · exact h' x (by omega)

theorem expects_of_alt {i : Nat} (h : kind tests i = some .alt) : Expects tests i := ⟨_, h, rfl⟩

theorem Open.expects {i : Nat} (h : Open tests ch i) : Expects tests i := by
  obtain ⟨-, d, hd, rfl | hb⟩ := h
  · exact hd.1
  · exact expects_of_alt hb.alt

theorem Due.open {d : Nat} (h : Due tests ch d) : Open tests ch d := ⟨h.2.1, d, h, .inl rfl⟩

/-- The test that is due is the first one that is open. -/
theorem Due.le_open {d i : Nat} (hd : Due tests ch d) (h : Open tests ch i) : d ≤ i := by
  by_contra hlt
  exact h.1 (hd.2.2 i (by omega) h.expects)

/-- Only an alternative has others beside it. -/
theorem Due.open_eq {d i : Nat} (hd : Due tests ch d) (ha : kind tests d ≠ some .alt)
    (h : Open tests ch i) : i = d := by
  obtain ⟨-, d', hd', rfl | hb⟩ := h
  · exact hd'.unique hd
  · cases hd'.unique hd
    exact absurd hb.self_alt ha

theorem before_append {i p n : Nat} (h : p ≤ n) :
    Choice.before (ch ++ [(i, n)]) p = ch.before p := by
  simp [Choice.before, List.filter_append, Nat.not_lt.mpr h]

theorem before_eq_self {p : Nat} (h : ∀ e ∈ ch, e.2 < p) : ch.before p = ch := by
  simpa [Choice.before, List.filter_eq_self] using fun a b hab => h (a, b) hab

theorem upTo_append (i n : Nat) : Choice.upTo (ch ++ [(i, n)]) = n + 1 := by
  simp [Choice.upTo]

theorem upTo_le {n : Nat} (h : ∀ e ∈ ch, e.2 < n) : ch.upTo ≤ n := by
  unfold Choice.upTo
  cases hl : ch.getLast? with
  | none => exact Nat.zero_le n
  | some e => exact h e (List.mem_of_getLast? hl)

/-- Records that come later do not change what `=` stands for. -/
theorem lastOf_append {more : List Record} (h : ∀ e ∈ ch, e.2 < recs.length) :
    lastOf (recs ++ more) ch = lastOf recs ch := by
  unfold lastOf
  cases hl : ch.getLast? with
  | none => rfl
  | some e =>
    have he := h e (List.mem_of_getLast? hl)
    simp [List.getElem?_append_left he]

theorem lastOf_take {i : Nat} {r : Record} :
    lastOf (recs ++ [r]) (ch ++ [(i, recs.length)]) = r.last := by
  simp [lastOf]

end

/-! ## Progress -/

section

variable {vreMatch : Vre → Bytes → Bool} {tests : List (Test Vre)}

theorem Skip.allows_of_skips {t : Test Vre} {last : Last} {k : Nat} {r : Record}
    (h : t.skips last k r = true) : t.skipMax.allows (k + 1) := by
  simp only [Test.skips, Bool.and_eq_true] at h
  cases hk : t.skipMax <;> simp_all [Skip.allows]

theorem Skip.allows_zero (k : Skip) : k.allows 0 := by
  cases k <;> simp [Skip.allows]

/-- What holds of every progress. The tests that were met beyond the one that is due are
alternatives to it. -/
structure Progress.Inv (vreMatch : Vre → Bytes → Bool) (tests : List (Test Vre))
    (recs : List Record) (ch : Choice) : Prop where
  bound : ∀ e ∈ ch, e.2 < recs.length
  increasing : (ch.map Prod.snd).Pairwise (· < ·)
  expects : ∀ i, Taken ch i → Expects tests i
  once : (ch.map Prod.fst).Nodup
  order : ch.Pairwise fun a b => a.1 < b.1 ∨ Block tests a.1 b.1
  beyond : ∀ d i, Due tests ch d → Taken ch i → i < d ∨ Block tests d i
  gap : ∀ d t, Due tests ch d → tests[d]? = some t →
    t.skipMax.allows (recs.length - ch.upTo)
  met : ∀ i p, (i, p) ∈ ch → ∃ t r, tests[i]? = some t ∧ recs[p]? = some r ∧
    t.ok vreMatch (lastOf recs (ch.before p)) r = true ∧
    t.skipMax.allows (p - (ch.before p).upTo)
  unfailed : ∀ p r f, recs[p]? = some r → Active tests (ch.before p) f →
    ¬OkAt vreMatch tests (lastOf recs (ch.before p)) f r

variable {recs : List Record} {ch ch' : Choice} {r : Record}

theorem Progress.Inv.lastOf_before {more : List Record} (h : Progress.Inv vreMatch tests recs ch)
    (p : Nat) : lastOf (recs ++ more) (ch.before p) = lastOf recs (ch.before p) :=
  lastOf_append fun e he => h.bound e (List.mem_of_mem_filter he)

/-- A test that was met stands before one that is open, or in one block with it. -/
theorem Progress.Inv.before_open (h : Progress.Inv vreMatch tests recs ch) {i j : Nat}
    (hj : Taken ch j) (hi : Open tests ch i) : j < i ∨ Block tests j i := by
  obtain ⟨d, hd, hid⟩ := hi.2
  have hle := hd.le_open hi
  rcases h.beyond d j hd hj with hlt | hb
  · exact .inl (by omega)
  · rcases hid with rfl | hb'
    · exact .inr hb.symm
    · exact .inr (hb.symm.trans hb')

theorem Progress.Inv.beyond_take (h : Progress.Inv vreMatch tests recs ch) {i n d' j : Nat}
    (hi : Open tests ch i) (hd' : Due tests (ch ++ [(i, n)]) d')
    (hj : Taken (ch ++ [(i, n)]) j) : j < d' ∨ Block tests d' j := by
  obtain ⟨d, hd, hid⟩ := hi.2
  have hnd : ¬Taken ch d' := fun ht => hd'.2.1 (taken_append.mpr (.inl ht))
  have hnd' : d' ≠ i := fun e => hd'.2.1 (taken_append.mpr (.inr e))
  have hle : d ≤ d' := by
    by_contra hlt
    exact hnd (hd.2.2 d' (by omega) hd'.1)
  -- what was met at `d` or after it is an alternative to `d`
  have hdj : j < d ∨ j = d ∨ Block tests d j := by
    rcases taken_append.mp hj with ht | rfl
    · exact (h.beyond d j hd ht).imp id .inr
    · exact .inr hid
  rcases hdj with hlt | rfl | hb
  · exact .inl (by omega)
  · refine (Nat.lt_or_ge j d').imp id fun hge => ?_
    have : d' = j := by omega
    subst this
    exact absurd hj hd'.2.1
  · by_cases hlt : j < d'
    · exact .inl hlt
    · exact .inr fun k hk => hb k (by omega)

theorem Progress.Inv.unfailed_snoc (h : Progress.Inv vreMatch tests recs ch)
    (hf : ∀ f, Active tests ch f → ¬OkAt vreMatch tests (lastOf recs ch) f r) :
    ∀ p r' f, (recs ++ [r])[p]? = some r' → Active tests (ch.before p) f →
      ¬OkAt vreMatch tests (lastOf (recs ++ [r]) (ch.before p)) f r' := by
  intro p r' f hr ha
  rw [h.lastOf_before]
  rcases Nat.lt_trichotomy p recs.length with hlt | rfl | hgt
  · rw [List.getElem?_append_left hlt] at hr
    exact h.unfailed p r' f hr ha
  · rw [before_eq_self h.bound] at ha ⊢
    have : r = r' := by simpa using hr
    exact this ▸ hf f ha
  · have hl := (List.getElem?_eq_some_iff.mp hr).1
    simp only [List.length_append, List.length_singleton] at hl
    omega

theorem Progress.Inv.met_snoc (h : Progress.Inv vreMatch tests recs ch) {i p : Nat}
    (hm : (i, p) ∈ ch) : ∃ t r', tests[i]? = some t ∧ (recs ++ [r])[p]? = some r' ∧
      t.ok vreMatch (lastOf (recs ++ [r]) (ch.before p)) r' = true ∧
      t.skipMax.allows (p - (ch.before p).upTo) := by
  obtain ⟨t, r', ht, hr, hok, hs⟩ := h.met i p hm
  refine ⟨t, r', ht, ?_, ?_, hs⟩
  · rw [List.getElem?_append_left (h.bound (i, p) hm), hr]
  · rw [h.lastOf_before, hok]

/-- A record that meets no test. -/
theorem Progress.Inv.still (h : Progress.Inv vreMatch tests recs ch)
    (hf : ∀ f, Active tests ch f → ¬OkAt vreMatch tests (lastOf recs ch) f r)
    (hgap : ∀ d t, Due tests ch d → tests[d]? = some t →
      t.skipMax.allows (recs.length - ch.upTo + 1)) :
    Progress.Inv vreMatch tests (recs ++ [r]) ch where
  bound e he := by
    have := h.bound e he
    simp only [List.length_append, List.length_singleton]
    omega
  increasing := h.increasing
  expects := h.expects
  once := h.once
  order := h.order
  beyond := h.beyond
  gap d t hd ht := by
    have hle := upTo_le h.bound
    have e : (recs ++ [r]).length - ch.upTo = recs.length - ch.upTo + 1 := by
      simp only [List.length_append, List.length_singleton]
      omega
    rw [e]
    exact hgap d t hd ht
  met i p hm := h.met_snoc hm
  unfailed := h.unfailed_snoc hf

theorem Progress.Inv.allows_open (h : Progress.Inv vreMatch tests recs ch) {i : Nat} {t : Test Vre}
    (hi : Open tests ch i) (ht : tests[i]? = some t) :
    t.skipMax.allows (recs.length - ch.upTo) := by
  obtain ⟨d, hd, rfl | hb⟩ := hi.2
  · exact h.gap i t hd ht
  · -- the alternative that is due allows no gap, and so there is none
    obtain ⟨td, htd, hkd⟩ := Option.map_eq_some_iff.mp hb.self_alt
    have hz := h.gap d td hd htd
    rw [hkd] at hz
    simp only [Skip.allows] at hz
    rw [hz]
    exact Skip.allows_zero _

/-- A record that meets a test. -/
theorem Progress.Inv.take (h : Progress.Inv vreMatch tests recs ch)
    (hf : ∀ f, Active tests ch f → ¬OkAt vreMatch tests (lastOf recs ch) f r) {i : Nat}
    (hi : Open tests ch i) (hok : OkAt vreMatch tests (lastOf recs ch) i r) :
    Progress.Inv vreMatch tests (recs ++ [r]) (ch ++ [(i, recs.length)]) where
  bound e he := by
    simp only [List.length_append, List.length_singleton]
    rcases List.mem_append.mp he with he | he
    · have := h.bound e he
      omega
    · rw [List.mem_singleton.mp he]
      omega
  increasing := by
    rw [List.map_append, List.pairwise_append]
    refine ⟨h.increasing, List.pairwise_singleton _ _, fun a ha b hb => ?_⟩
    obtain ⟨e, he, rfl⟩ := List.mem_map.mp ha
    rw [List.mem_singleton.mp hb]
    exact h.bound e he
  expects j hj := by
    rcases taken_append.mp hj with ht | rfl
    · exact h.expects j ht
    · exact hi.expects
  once := by
    rw [List.map_append, List.nodup_append]
    refine ⟨h.once, List.nodup_singleton _, fun a ha b hb e => ?_⟩
    subst e
    have hai : a = i := List.mem_singleton.mp hb
    subst hai
    exact hi.1 ha
  order := by
    rw [List.pairwise_append]
    refine ⟨h.order, List.pairwise_singleton _ _, fun a ha b hb => ?_⟩
    rw [List.mem_singleton.mp hb]
    exact h.before_open (List.mem_map_of_mem ha) hi
  beyond d j hd hj := h.beyond_take hi hd hj
  gap d t _ _ := by
    rw [upTo_append, List.length_append, List.length_singleton, Nat.sub_self]
    exact Skip.allows_zero _
  met j p hm := by
    rcases List.mem_append.mp hm with hm | hm
    · rw [before_append (Nat.le_of_lt (h.bound _ hm))]
      exact h.met_snoc hm
    · obtain ⟨rfl, rfl⟩ := Prod.mk.injEq _ _ _ _ ▸ List.mem_singleton.mp hm
      obtain ⟨t, ht, hok⟩ := hok
      rw [before_append (Nat.le_refl _), before_eq_self h.bound, lastOf_append h.bound]
      exact ⟨t, r, ht, by simp, hok, h.allows_open hi ht⟩
  unfailed p r' f hr ha := by
    have hp : p ≤ recs.length := by
      have hl := (List.getElem?_eq_some_iff.mp hr).1
      simp only [List.length_append, List.length_singleton] at hl
      omega
    rw [before_append hp] at ha ⊢
    exact h.unfailed_snoc hf p r' f hr ha

theorem Progress.inv (h : Progress vreMatch tests recs ch) :
    Progress.Inv vreMatch tests recs ch := by
  induction h with
  | nil =>
    exact {
      bound := by simp
      increasing := by simp
      expects := by simp [Taken]
      once := by simp
      order := by simp
      beyond := by simp [Taken]
      gap := fun _ t _ _ => Skip.allows_zero t.skipMax
      met := by simp
      unfailed := by simp }
  | @snoc recs ch ch' r hp hf hs ih =>
    cases hs with
    | @skip d t hd ht hok hs =>
      refine ih.still hf fun d' t' hd' ht' => ?_
      cases hd.unique hd'
      cases ht.symm.trans ht'
      exact Skip.allows_of_skips hs
    | take hi hok hmin => exact ih.take hf hi hok
    | wait hd hf' => exact ih.still hf fun d t hd' _ => absurd hd' (hd d)

/-- A progress after which nothing is waited for, and the records after it. -/
theorem Progress.account {more : List Record} (h : Progress vreMatch tests recs ch)
    (hc : Complete tests ch) : Account vreMatch tests (recs ++ more) ch := by
  have hi := h.inv
  refine ⟨hi.increasing, fun i => ⟨fun he => ?_, hi.expects i⟩, hi.once, hi.order, ?_, ?_, hc.2⟩
  · by_contra ht
    obtain ⟨d, hd⟩ := exists_due he ht
    exact hc.1 d hd
  · intro i p hm
    obtain ⟨t, r, ht, hr, hok, hs⟩ := hi.met i p hm
    refine ⟨t, r, ht, ?_, ?_, hs⟩
    · rw [List.getElem?_append_left (hi.bound (i, p) hm), hr]
    · rw [hi.lastOf_before, hok]
  · intro p r f hr ha
    rw [hi.lastOf_before]
    by_cases hp : p < recs.length
    · rw [List.getElem?_append_left hp] at hr
      exact hi.unfailed p r f hr ha
    · -- all choices were made before, and no specification is active after them
      rw [before_eq_self fun e he => Nat.lt_of_lt_of_le (hi.bound e he) (Nat.le_of_not_lt hp)] at ha
      exact absurd ha (hc.2 f)

/-! ## What is allowed is determined -/

theorem Step.unique {ch1 ch2 : Choice} (h1 : Step vreMatch tests recs ch r ch1)
    (h2 : Step vreMatch tests recs ch r ch2) : ch1 = ch2 := by
  -- a record that is skipped meets no open test: an alternative that is due lets none pass
  have skip_take : ∀ {d i : Nat} {t : Test Vre}, Due tests ch d → tests[d]? = some t →
      t.ok vreMatch (lastOf recs ch) r = false →
      t.skips (lastOf recs ch) (recs.length - ch.upTo) r = true → Open tests ch i →
      ¬OkAt vreMatch tests (lastOf recs ch) i r := by
    intro d i t hd ht hok hs hi ⟨t', ht', hok'⟩
    have ha : kind tests d ≠ some .alt := by
      intro hk
      rw [kind, ht] at hk
      simp [Test.skips, Option.some.inj hk] at hs
    cases hd.open_eq ha hi
    cases ht.symm.trans ht'
    simp [hok] at hok'
  cases h1 with
  | skip hd ht hok hs =>
    cases h2 with
    | skip _ _ _ _ => rfl
    | take hi hok' _ => exact absurd hok' (skip_take hd ht hok hs hi)
    | wait _ _ => rfl
  | @take i hi hok hmin =>
    cases h2 with
    | skip hd ht hok' hs => exact absurd hok (skip_take hd ht hok' hs hi)
    | @take i' hi' hok' hmin' =>
      rcases Nat.lt_trichotomy i i' with hlt | rfl | hgt
      · exact absurd hok (hmin' i hlt hi)
      · rfl
      · exact absurd hok' (hmin i' hgt hi')
    | wait hd _ =>
      obtain ⟨d, hd', -⟩ := hi.2
      exact absurd hd' (hd d)
  | wait hd hf =>
    cases h2 with
    | skip _ _ _ _ => rfl
    | take hi _ _ =>
      obtain ⟨d, hd', -⟩ := hi.2
      exact absurd hd' (hd d)
    | wait _ _ => rfl

theorem Progress.unique {ch1 ch2 : Choice} (h1 : Progress vreMatch tests recs ch1)
    (h2 : Progress vreMatch tests recs ch2) : ch1 = ch2 := by
  induction h1 generalizing ch2 with
  | nil =>
    generalize hn : ([] : List Record) = l at h2
    cases h2 with
    | nil => rfl
    | snoc _ _ _ => simp at hn
  | @snoc recs ch ch' r hp hf hs ih =>
    generalize hn : recs ++ [r] = l at h2
    cases h2 with
    | nil => simp at hn
    | snoc hp' _ hs' =>
      obtain ⟨rfl, e⟩ := List.append_inj' hn rfl
      cases e
      cases ih hp'
      exact hs.unique hs'

/-- The last record of a progress, which was allowed. -/
theorem Progress.snoc_inv (h : Progress vreMatch tests (recs ++ [r]) ch') :
    ∃ ch, Progress vreMatch tests recs ch ∧
      (∀ f, Active tests ch f → ¬OkAt vreMatch tests (lastOf recs ch) f r) ∧
      Step vreMatch tests recs ch r ch' := by
  generalize hn : recs ++ [r] = l at h
  cases h with
  | nil => simp at hn
  | @snoc _ ch _ _ hp hf hs =>
    obtain ⟨rfl, e⟩ := List.append_inj' hn rfl
    cases e
    exact ⟨ch, hp, hf, hs⟩

theorem Progress.of_append {more : List Record} (h : Progress vreMatch tests (recs ++ more) ch') :
    ∃ ch, Progress vreMatch tests recs ch := by
  induction more using List.reverseRecOn generalizing ch' with
  | nil => exact ⟨ch', by simpa using h⟩
  | append_singleton more r ih =>
    rw [← List.append_assoc] at h
    obtain ⟨ch, hp, -⟩ := h.snoc_inv
    exact ih hp

theorem Step.not_complete (h : Step vreMatch tests recs ch r ch') : ¬Complete tests ch := by
  rintro ⟨hd, hf⟩
  cases h with
  | skip hd' _ _ _ => exact hd _ hd'
  | take hi _ _ =>
    obtain ⟨d, hd', -⟩ := hi.2
    exact hd d hd'
  | wait _ hf' => exact hf _ hf'

theorem Offends.not_complete (h : Offends vreMatch tests recs ch r) : ¬Complete tests ch := by
  rintro ⟨hd, hf⟩
  rcases h with ⟨f, ha, -⟩ | ⟨d, -, hd', -⟩
  · exact hf f ha
  · exact hd d hd'

/-- A record that the tests allow does not offend. -/
theorem Step.not_offends (h : Step vreMatch tests recs ch r ch')
    (hf : ∀ f, Active tests ch f → ¬OkAt vreMatch tests (lastOf recs ch) f r) :
    ¬Offends vreMatch tests recs ch r := by
  rintro (⟨f, ha, hok⟩ | ⟨d, t, hd, ht, hno, hns⟩)
  · exact hf f ha hok
  · cases h with
    | skip hd' ht' _ hs =>
      cases hd.unique hd'
      cases ht.symm.trans ht'
      simp [hs] at hns
    | take hi hok _ => exact hno _ hi hok
    | wait hd' _ => exact hd' d hd

/-- A log that starts with a complete progress is not violated. -/
theorem Progress.not_violated {more : List Record} (h : Progress vreMatch tests recs ch)
    (hc : Complete tests ch) : ¬Violated vreMatch tests (recs ++ more) := by
  rintro ⟨pre, r, post, ch', he, hp, ho⟩
  rcases List.append_eq_append_iff.mp he with ⟨mid, rfl, hmore⟩ | ⟨mid, rfl, hmore⟩
  · -- the progress is complete before the record that offends
    cases mid with
    | nil =>
      rw [List.append_nil] at hp
      cases h.unique hp
      exact ho.not_complete (by simpa using hc)
    | cons r' mid =>
      have hp' : Progress vreMatch tests ((recs ++ [r']) ++ mid) ch' := by simpa using hp
      obtain ⟨ch1, hp1⟩ := hp'.of_append
      obtain ⟨ch0, hp0, -, hs⟩ := hp1.snoc_inv
      cases h.unique hp0
      exact hs.not_complete hc
  · -- the record that offends is one of the progress
    cases mid with
    | nil =>
      rw [List.append_nil] at h
      cases h.unique hp
      exact ho.not_complete hc
    | cons r' mid =>
      obtain ⟨rfl, -⟩ := List.cons.inj hmore
      have h' : Progress vreMatch tests ((pre ++ [r]) ++ mid) ch := by simpa using h
      obtain ⟨ch1, hp1⟩ := h'.of_append
      obtain ⟨ch0, hp0, hf, hs⟩ := hp1.snoc_inv
      cases hp.unique hp0
      exact hs.not_offends hf ho

end

end Logexpect
end VTest
