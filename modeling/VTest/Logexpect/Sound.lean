import VTest.Logexpect.Account

/-!
# VTest.Logexpect.Sound

The cursor, the marks and the fail list of `logexpect` are a way to keep a choice: `Rep` says of
which one. Every record either offends, and `logexp_dispatch` says so, or it makes the step of the
choice that the tests allow (`dispatchRecord_spec`); the rest of the module takes this through the
loops, from one call of `logexp_dispatch` to the whole thread (`logexpRun_spec`).
-/

namespace VTest
namespace Logexpect

variable {Vre : Type} {vreMatch : Vre → Bytes → Bool} {tests : List (Test Vre)}
  {le : Logexp Vre} {recs : List Record} {ch : Choice} {r : Record}

instance (ch : Choice) (i : Nat) : Decidable (Taken ch i) :=
  inferInstanceAs (Decidable (i ∈ ch.map Prod.fst))

/-! ## Marks -/

/-- Test `i` as the list has it after a choice. -/
def marked (ch : Choice) (i : Nat) (t : Test Vre) : Test Vre :=
  if t.skipMax = .alt ∧ Taken ch i then { t with skipMax := .seen } else t

/-- The list is the one of the start, with the alternatives marked that were met. -/
def Marks (tests : List (Test Vre)) (ch : Choice) (now : List (Test Vre)) : Prop :=
  ∀ i, now[i]? = tests[i]?.map (marked ch i)

def Fresh (tests : List (Test Vre)) : Prop := ∀ i, kind tests i ≠ some .seen

theorem fresh_logexpClean (l : List (Test Vre)) : Fresh (logexpClean l) := by
  intro i h
  simp only [kind, logexpClean, List.getElem?_map, Option.map_map, Option.map_eq_some_iff] at h
  obtain ⟨t, -, ht⟩ := h
  simp only [Function.comp_apply] at ht
  split at ht
  · simp at ht
  · contradiction

theorem ok_marked {i : Nat} {t : Test Vre} {last : Last} :
    (marked ch i t).ok vreMatch last r = t.ok vreMatch last r := by
  unfold marked
  split <;> rfl

/-- The test that the list has at a place, against the one it started with. -/
theorem Marks.cases {now : List (Test Vre)} (h : Marks tests ch now) {i : Nat} {t : Test Vre}
    (ht : now[i]? = some t) :
    ∃ t0, tests[i]? = some t0 ∧ t = marked ch i t0 ∧
      (t0.skipMax = .alt ∧ Taken ch i ∧ t.skipMax = .seen ∨
        ¬(t0.skipMax = .alt ∧ Taken ch i) ∧ t = t0) := by
  rw [h i, Option.map_eq_some_iff] at ht
  obtain ⟨t0, ht0, rfl⟩ := ht
  refine ⟨t0, ht0, rfl, ?_⟩
  unfold marked
  split
  · rename_i hc
    exact .inl ⟨hc.1, hc.2, rfl⟩
  · rename_i hc
    exact .inr ⟨hc, rfl⟩

theorem Marks.take {now : List (Test Vre)} (h : Marks tests ch now) {i p : Nat}
    (hk : kind tests i = some .alt) :
    Marks tests (ch ++ [(i, p)]) (now.modify i fun t => { t with skipMax := .seen }) := by
  intro j
  rw [List.getElem?_modify, h j, Option.map_eq_map, Option.map_map]
  by_cases hij : i = j
  · subst hij
    obtain ⟨t, ht, hkt⟩ := Option.map_eq_some_iff.mp hk
    rw [ht]
    by_cases htk : Taken ch i <;> simp [marked, hkt, taken_append, htk]
  · have : Taken (ch ++ [(i, p)]) j ↔ Taken ch j := by
      rw [taken_append]
      exact or_iff_left (Ne.symm hij)
    cases tests[j]? <;> simp [marked, this, hij]

/-- A test that is no alternative gets no mark. -/
theorem Marks.take_plain {now : List (Test Vre)} (h : Marks tests ch now) {i p : Nat}
    (hk : kind tests i ≠ some .alt) : Marks tests (ch ++ [(i, p)]) now := by
  intro j
  rw [h j]
  cases ht : tests[j]? with
  | none => rfl
  | some t =>
    by_cases hij : j = i
    · subst hij
      have hkt : t.skipMax ≠ .alt := by
        intro e
        exact hk (by rw [kind, ht, Option.map_some, e])
      simp [marked, hkt]
    · have : Taken (ch ++ [(i, p)]) j ↔ Taken ch j := by
        rw [taken_append]
        exact or_iff_left hij
      simp [marked, this]

theorem kind_of_get {i : Nat} {t : Test Vre} (h : tests[i]? = some t) :
    kind tests i = some t.skipMax := by
  rw [kind, h, Option.map_some]

theorem get_of_drop {now rest : List (Test Vre)} {i : Nat} {t : Test Vre}
    (h : now.drop i = t :: rest) : now[i]? = some t ∧ now.drop (i + 1) = rest := by
  constructor
  · have := congrArg List.head? h
    rwa [List.head?_drop, List.head?_cons] at this
  · rw [← List.tail_drop, h, List.tail_cons]

/-! ## The cursor -/

/-- The fail list when the cursor gets to test `i`. -/
def FailsAt (tests : List (Test Vre)) (i : Nat) (fail : List Nat) : Prop :=
  ∀ f, f ∈ fail ↔ f < i ∧ kind tests f = some .fail ∧
    ∀ c, f < c → c < i → kind tests c ≠ some .clear

theorem FailsAt.succ {i : Nat} {fail : List Nat} (h : FailsAt tests i fail)
    (hf : kind tests i ≠ some .fail) (hc : kind tests i ≠ some .clear) :
    FailsAt tests (i + 1) fail := by
  intro f
  rw [h f]
  constructor
  · rintro ⟨hlt, hk, hno⟩
    refine ⟨by omega, hk, fun c hfc hci => ?_⟩
    rcases Nat.lt_succ_iff_lt_or_eq.mp hci with hlt' | rfl
    · exact hno c hfc hlt'
    · exact hc
  · rintro ⟨hlt, hk, hno⟩
    refine ⟨?_, hk, fun c hfc hci => hno c hfc (by omega)⟩
    rcases Nat.lt_succ_iff_lt_or_eq.mp hlt with hlt' | rfl
    · exact hlt'
    · exact absurd hk hf

theorem FailsAt.clear {i : Nat} (hc : kind tests i = some .clear) : FailsAt tests (i + 1) [] := by
  intro f
  simp only [List.not_mem_nil, false_iff]
  rintro ⟨hlt, hk, hno⟩
  have hne : f ≠ i := by
    rintro rfl
    rw [hc] at hk
    cases hk
  exact hno i (by omega) (by omega) hc

theorem FailsAt.add {i : Nat} {fail : List Nat} (h : FailsAt tests i fail)
    (hf : kind tests i = some .fail) : FailsAt tests (i + 1) (fail ++ [i]) := by
  intro f
  rw [List.mem_append, List.mem_singleton, h f]
  constructor
  · rintro (⟨hlt, hk, hno⟩ | rfl)
    · refine ⟨by omega, hk, fun c hfc hci => ?_⟩
      rcases Nat.lt_succ_iff_lt_or_eq.mp hci with hlt' | rfl
      · exact hno c hfc hlt'
      · rw [hf]
        simp
    · exact ⟨by omega, hf, fun c hfc hci => by omega⟩
  · rintro ⟨hlt, hk, hno⟩
    rcases Nat.lt_succ_iff_lt_or_eq.mp hlt with hlt' | rfl
    · exact .inl ⟨hlt', hk, fun c hfc hci => hno c hfc (by omega)⟩
    · exact .inr rfl

/-- Where all that is settled of the fail list's commands is what is before `i`, the fail list
there is what is active. -/
theorem active_iff {i : Nat} (hs : ∀ j, kind tests j = some .fail ∨ kind tests j = some .clear →
      (Settled tests ch j ↔ j < i)) (f : Nat) :
    Active tests ch f ↔ f < i ∧ kind tests f = some .fail ∧
      ∀ c, f < c → c < i → kind tests c ≠ some .clear := by
  constructor
  · rintro ⟨hk, hset, hno⟩
    refine ⟨(hs f (.inl hk)).mp hset, hk, fun c hfc hci hc => ?_⟩
    exact hno c hfc hc ((hs c (.inr hc)).mpr hci)
  · rintro ⟨hlt, hk, hno⟩
    refine ⟨hk, (hs f (.inl hk)).mpr hlt, fun c hfc hc hset => ?_⟩
    exact hno c hfc ((hs c (.inr hc)).mp hset) hc

theorem Due.active_iff {d : Nat} (hd : Due tests ch d) (f : Nat) :
    Active tests ch f ↔ f < d ∧ kind tests f = some .fail ∧
      ∀ c, f < c → c < d → kind tests c ≠ some .clear := by
  refine Logexpect.active_iff (fun j hj => ?_) f
  rw [hd.settled_iff]
  have : j ≠ d := by
    rintro rfl
    obtain ⟨k, hk, he⟩ := hd.1
    rcases hj with hj | hj <;> rw [hj] at hk <;> cases hk <;> cases he
  omega

/-- What the cursor and the fail list have to say about a choice. -/
structure At (tests : List (Test Vre)) (ch : Choice) (le : Logexp Vre) : Prop where
  test : ∀ i, le.test = some i ↔ Due tests ch i
  fail : ∀ f, f ∈ le.fail ↔ Active tests ch f

theorem At.stop {i : Nat} (hd : Due tests ch i) (hf : FailsAt tests i le.fail) :
    At tests ch { le with test := some i } where
  test j := by
    constructor
    · intro e
      cases e
      exact hd
    · exact fun hj => congrArg some (hd.unique hj)
  fail f := (hf f).trans (hd.active_iff f).symm

theorem At.finish {i : Nat} (hs : Settled tests ch i) (hl : tests.length ≤ i)
    (hf : FailsAt tests i le.fail) : At tests ch { le with test := none } := by
  have hlt : ∀ j k, kind tests j = some k → j < i := by
    intro j k hk
    obtain ⟨t, ht, -⟩ := Option.map_eq_some_iff.mp hk
    have := (List.getElem?_eq_some_iff.mp ht).1
    omega
  have hall : ∀ j, Settled tests ch j := by
    intro j k _ he
    obtain ⟨x, hx, hxe⟩ := he
    exact hs k (hlt k x hx) ⟨x, hx, hxe⟩
  constructor
  · intro j
    simp only [reduceCtorEq, false_iff]
    rintro ⟨⟨k, hk, he⟩, hn, -⟩
    exact hn (hs j (hlt j k hk) ⟨k, hk, he⟩)
  · intro f
    refine (hf f).trans (active_iff (fun j hj => ?_) f).symm
    exact ⟨fun _ => hj.elim (hlt j _) (hlt j _), fun _ => hall j⟩

/-- The fields that only the cursor moves. -/
def SameBut (le le' : Logexp Vre) : Prop :=
  le'.tests = le.tests ∧ le'.skipCnt = le.skipCnt ∧ le'.last = le.last

theorem Marks.length_le {now : List (Test Vre)} (h : Marks tests ch now) {i : Nat}
    (hi : now.drop i = []) : tests.length ≤ i := by
  by_contra hlt
  have hg := h i
  rw [List.getElem?_eq_none (List.drop_eq_nil_iff.mp hi),
    List.getElem?_eq_getElem (by omega)] at hg
  cases hg

theorem logexpWalk_spec (hfr : Fresh tests) (rest : List (Test Vre)) :
    ∀ {le le' : Logexp Vre} {i : Nat}, Marks tests ch le.tests → le.tests.drop i = rest →
      Settled tests ch i → (∀ j, Taken ch j → i ≤ j → Block tests i j) →
      FailsAt tests i le.fail → logexpWalk le i rest = .ok le' →
      At tests ch le' ∧ SameBut le le' := by
  induction rest with
  | nil =>
    intro le le' i hm hd hs _ hf h
    cases h
    exact ⟨.finish hs (hm.length_le hd) hf, rfl, rfl, rfl⟩
  | cons t rest ih =>
    intro le le' i hm hd hs hb hf h
    obtain ⟨hget, hdrop⟩ := get_of_drop hd
    obtain ⟨t0, ht0, -, hmk⟩ := hm.cases hget
    have hk0 := kind_of_get ht0
    have hb' : ∀ j, Taken ch j → i + 1 ≤ j → Block tests (i + 1) j :=
      fun j hj hij k hk => hb j hj (by omega) k (by omega)
    -- what is settled before the next test, once this one is
    have hs' : (Expects tests i → Taken ch i) → Settled tests ch (i + 1) := by
      intro hi j hj he
      rcases Nat.lt_succ_iff_lt_or_eq.mp hj with hlt | rfl
      · exact hs j hlt he
      · exact hi he
    rcases hmk with ⟨halt, htk, hseen⟩ | ⟨hnt, rfl⟩
    · rw [halt] at hk0
      simp only [logexpWalk, hseen] at h
      exact ih hm hdrop (hs' fun _ => htk) hb' (hf.succ (by simp [hk0]) (by simp [hk0])) h
    · have hno : ∀ k, t.skipMax = k → k.isExpect = false → Settled tests ch (i + 1) := by
        intro k hk hke
        refine hs' fun ⟨k', hk', he⟩ => ?_
        rw [hk0, hk] at hk'
        cases hk'
        simp [hke] at he
      have hstop : t.skipMax.isExpect = true → Due tests ch i := by
        refine fun he => ⟨⟨_, hk0, he⟩, fun htk => hnt ⟨?_, htk⟩, hs⟩
        have := (hb i htk (Nat.le_refl i)).alt
        rw [hk0] at this
        exact Option.some.inj this
      cases hk : t.skipMax with
      | seen => exact absurd (hk ▸ hk0) (hfr i)
      | clear =>
        simp only [logexpWalk, hk] at h
        exact @ih { le with fail := [] } le' _ hm hdrop (hno _ hk rfl) hb' (.clear (hk ▸ hk0)) h
      | fail =>
        simp only [logexpWalk, hk] at h
        exact @ih { le with fail := le.fail ++ [i] } le' _ hm hdrop (hno _ hk rfl) hb'
          (hf.add (hk ▸ hk0)) h
      | abort => simp [logexpWalk, hk] at h
      | num n =>
        simp only [logexpWalk, hk] at h
        cases h
        exact ⟨.stop (hstop (by rw [hk]; rfl)) hf, rfl, rfl, rfl⟩
      | any =>
        simp only [logexpWalk, hk] at h
        cases h
        exact ⟨.stop (hstop (by rw [hk]; rfl)) hf, rfl, rfl, rfl⟩
      | alt =>
        simp only [logexpWalk, hk] at h
        cases h
        exact ⟨.stop (hstop (by rw [hk]; rfl)) hf, rfl, rfl, rfl⟩

/-! ## Matching -/

theorem okAt_iff {now : List (Test Vre)} (hm : Marks tests ch now) {i : Nat} {t : Test Vre}
    {last : Last} (ht : now[i]? = some t) :
    OkAt vreMatch tests last i r ↔ t.ok vreMatch last r = true := by
  obtain ⟨t0, ht0, rfl, -⟩ := hm.cases ht
  rw [ok_marked]
  constructor
  · rintro ⟨t', ht', hok⟩
    cases ht0.symm.trans ht'
    exact hok
  · exact fun hok => ⟨t0, ht0, hok⟩

/-- The alternatives from test `i` on: the first one that is open and meets the record is marked;
there may be none. -/
def AltResult (vreMatch : Vre → Bytes → Bool) (tests : List (Test Vre)) (ch : Choice)
    (le : Logexp Vre) (r : Record) (i : Nat) (res : LeMatch × Logexp Vre) : Prop :=
  (∃ j, i ≤ j ∧ kind tests j = some .alt ∧ Open tests ch j ∧ OkAt vreMatch tests le.last j r ∧
    (∀ k, i ≤ k → k < j → Open tests ch k → ¬OkAt vreMatch tests le.last k r) ∧
    res = (.ok, le.mark j)) ∨
  (∀ k, i ≤ k → Open tests ch k → ¬OkAt vreMatch tests le.last k r) ∧ res = (.fail, le)

theorem AltResult.pred {i : Nat} {res : LeMatch × Logexp Vre}
    (h : AltResult vreMatch tests ch le r (i + 1) res)
    (hno : Open tests ch i → ¬OkAt vreMatch tests le.last i r) :
    AltResult vreMatch tests ch le r i res := by
  have hthis : ∀ k, i ≤ k → ¬i + 1 ≤ k → Open tests ch k → ¬OkAt vreMatch tests le.last k r := by
    intro k hik hk
    have : k = i := by omega
    subst this
    exact hno
  rcases h with ⟨j, hij, hk, ho, hok, hmin, e⟩ | ⟨hnone, e⟩
  · refine .inl ⟨j, by omega, hk, ho, hok, fun k hik hkj => ?_, e⟩
    by_cases hk : i + 1 ≤ k
    · exact hmin k hk hkj
    · exact hthis k hik hk
  · refine .inr ⟨fun k hik => ?_, e⟩
    by_cases hk : i + 1 ≤ k
    · exact hnone k hk
    · exact hthis k hik hk

/-- The search starts in the block of the test that is due. -/
theorem logexpAlt_spec (hfr : Fresh tests) (hm : Marks tests ch le.tests) {d : Nat}
    (hd : Due tests ch d) (rest : List (Test Vre)) :
    ∀ {i : Nat}, le.tests.drop i = rest → d < i →
      (∀ k, d ≤ k → k < i → kind tests k = some .alt) →
      AltResult vreMatch tests ch le r i (logexpAlt vreMatch le r i rest) := by
  -- an open test from `i` on is in the block of `d`, and so test `i` is
  have hin : ∀ {i k : Nat}, d < i → i ≤ k → Open tests ch k → kind tests i = some .alt := by
    intro i k hdi hik ⟨_, d', hd', hk⟩
    cases hd.unique hd'
    rcases hk with rfl | hb
    · omega
    · exact hb i (by omega)
  induction rest with
  | nil =>
    intro i hdrop hdi _
    refine .inr ⟨fun k hik hk => ?_, rfl⟩
    have hl := hm.length_le hdrop
    obtain ⟨t, ht, -⟩ := Option.map_eq_some_iff.mp (hin hdi hik hk)
    have := (List.getElem?_eq_some_iff.mp ht).1
    omega
  | cons t rest ih =>
    intro i hdrop hdi hblk
    obtain ⟨hget, hdrop'⟩ := get_of_drop hdrop
    obtain ⟨t0, ht0, -, hmk⟩ := hm.cases hget
    have hk0 := kind_of_get ht0
    have hmore : kind tests i = some .alt → ∀ k, d ≤ k → k < i + 1 → kind tests k = some .alt := by
      intro hi k hdk hki
      rcases Nat.lt_succ_iff_lt_or_eq.mp hki with hlt | rfl
      · exact hblk k hdk hlt
      · exact hi
    rcases hmk with ⟨halt, htk, hseen⟩ | ⟨hnt, rfl⟩
    · simp only [logexpAlt, hseen]
      exact (ih hdrop' (by omega) (hmore (halt ▸ hk0))).pred fun ho => absurd htk ho.1
    · by_cases halt : t.skipMax = .alt
      · have hki : kind tests i = some .alt := halt ▸ hk0
        have hop : Open tests ch i := by
          refine ⟨fun htk => hnt ⟨halt, htk⟩, d, hd, .inr fun k hk => ?_⟩
          exact hmore hki k (by omega) (by omega)
        cases hok : t.ok vreMatch le.last r with
        | true =>
          refine .inl ⟨i, Nat.le_refl i, hki, hop, (okAt_iff hm hget).mpr hok, ?_, ?_⟩
          · intro k hik hki
            omega
          · simp only [logexpAlt, halt, hok, if_true]
        | false =>
          simp only [logexpAlt, halt, hok, Bool.false_eq_true, if_false]
          refine (ih hdrop' (by omega) (hmore hki)).pred fun _ h => ?_
          rw [okAt_iff hm hget, hok] at h
          cases h
      · refine .inr ⟨fun k hik hk => ?_, ?_⟩
        · have := hin hdi hik hk
          rw [hk0] at this
          exact absurd (Option.some.inj this) halt
        · have hns : t.skipMax ≠ .seen := fun e => hfr i (e ▸ hk0)
          unfold logexpAlt
          split
          · contradiction
          · contradiction
          · rfl

/-- `logexp_match` on the test that is due. -/
inductive Matched (vreMatch : Vre → Bytes → Bool) (tests : List (Test Vre)) (ch : Choice)
    (le : Logexp Vre) (r : Record) (d : Nat) : LeMatch × Logexp Vre → Prop where
  | take {i : Nat} {le' : Logexp Vre} (hi : Open tests ch i)
      (hok : OkAt vreMatch tests le.last i r)
      (hmin : ∀ j, j < i → Open tests ch j → ¬OkAt vreMatch tests le.last j r)
      (hm : ∀ p, Marks tests (ch ++ [(i, p)]) le'.tests)
      (hle : le' = { le with tests := le'.tests }) : Matched vreMatch tests ch le r d (.ok, le')
  | skip {t : Test Vre} (ht : tests[d]? = some t) (hok : t.ok vreMatch le.last r = false)
      (hs : t.skips le.last le.skipCnt r = true) : Matched vreMatch tests ch le r d (.skip, le)
  | fail {t : Test Vre} (ht : tests[d]? = some t)
      (hno : ∀ i, Open tests ch i → ¬OkAt vreMatch tests le.last i r)
      (hs : t.skips le.last le.skipCnt r = false) : Matched vreMatch tests ch le r d (.fail, le)

theorem logexpMatch_due (hfr : Fresh tests) (hm : Marks tests ch le.tests) {d : Nat}
    (hd : Due tests ch d) {m : LeMatch × Logexp Vre}
    (h : logexpMatch vreMatch le r d = .ok m) : Matched vreMatch tests ch le r d m := by
  unfold logexpMatch at h
  cases hdrop : le.tests.drop d with
  | nil => simp [hdrop] at h
  | cons t rest =>
    simp only [hdrop] at h
    obtain ⟨-, h⟩ := check_bind_eq_ok.mp h
    cases h
    obtain ⟨hget, hdrop'⟩ := get_of_drop hdrop
    obtain ⟨t0, ht0, -, ⟨_, htk, _⟩ | ⟨hnt, rfl⟩⟩ := hm.cases hget
    · exact absurd htk hd.2.1
    have hk0 := kind_of_get ht0
    have hfirst : ∀ j, j < d → Open tests ch j → ¬OkAt vreMatch tests le.last j r :=
      fun j hj ho => absurd (hd.le_open ho) (by omega)
    unfold matchTest
    cases hok : t.ok vreMatch le.last r with
    | true =>
      rw [if_pos rfl]
      have hoa := (okAt_iff hm hget).mpr hok
      by_cases halt : t.skipMax = .alt
      · rw [if_pos halt]
        exact .take hd.open hoa hfirst (fun _ => hm.take (halt ▸ hk0)) rfl
      · rw [if_neg halt]
        refine .take hd.open hoa hfirst (fun _ => hm.take_plain fun e => ?_) rfl
        exact halt (Option.some.inj (hk0.symm.trans e))
    | false =>
      have hnd : ¬OkAt vreMatch tests le.last d r := by
        rw [okAt_iff hm hget, hok]
        simp
      rw [if_neg (by simp)]
      by_cases halt : t.skipMax = .alt
      · rw [if_pos halt]
        have hblk : ∀ k, d ≤ k → k < d + 1 → kind tests k = some .alt := by
          intro k h1 h2
          have : k = d := by omega
          subst this
          exact halt ▸ hk0
        have hpast : ∀ k, ¬d + 1 ≤ k → Open tests ch k → ¬OkAt vreMatch tests le.last k r := by
          intro k hk ho
          have := hd.le_open ho
          have : k = d := by omega
          subst this
          exact hnd
        rcases logexpAlt_spec hfr hm hd rest hdrop' (Nat.lt_succ_self d) hblk with
          ⟨j, -, hkj, hoj, hoaj, hminj, e⟩ | ⟨hnone, e⟩
        · rw [e]
          refine .take hoj hoaj (fun k hk ho => ?_) (fun _ => hm.take hkj) rfl
          by_cases hdk : d + 1 ≤ k
          · exact hminj k hdk hk ho
          · exact hpast k hdk ho
        · rw [e]
          refine .fail ht0 (fun k ho => ?_) (by simp [Test.skips, halt])
          by_cases hdk : d + 1 ≤ k
          · exact hnone k hdk ho
          · exact hpast k hdk ho
      · rw [if_neg halt]
        have hka : kind tests d ≠ some .alt := fun e => halt (Option.some.inj (hk0.symm.trans e))
        cases hs : t.skips le.last le.skipCnt r with
        | true => exact .skip ht0 hok hs
        | false =>
          refine .fail ht0 (fun i hi => ?_) hs
          cases hd.open_eq hka hi
          exact hnd

/-- `logexp_match` on a fail specification. -/
theorem logexpMatch_fail (vreMatch : Vre → Bytes → Bool) (r : Record)
    (hm : Marks tests ch le.tests) {f : Nat} (hk : kind tests f = some .fail) :
    ∃ le', logexpMatch vreMatch le r f = .ok (.ok, le') ∧ OkAt vreMatch tests le.last f r ∨
      logexpMatch vreMatch le r f = .ok (.fail, le') ∧ ¬OkAt vreMatch tests le.last f r := by
  obtain ⟨t, ht, hkt⟩ := Option.map_eq_some_iff.mp hk
  have hget : le.tests[f]? = some t := by
    rw [hm f, ht, Option.map_some, marked, hkt]
    simp
  have hdrop : le.tests.drop f = t :: le.tests.drop (f + 1) := by
    obtain ⟨hl, e⟩ := List.getElem?_eq_some_iff.mp hget
    rw [List.drop_eq_getElem_cons hl, e]
  refine ⟨le, ?_⟩
  rw [okAt_iff hm hget]
  cases hok : t.ok vreMatch le.last r <;>
    simp [logexpMatch, hdrop, matchTest, hkt, hok, Test.skips]

theorem failLoop_spec (hm : Marks tests ch le.tests) (fs : List Nat)
    (hk : ∀ f ∈ fs, kind tests f = some .fail) {m : LeMatch}
    (h : failLoop vreMatch le r fs = .ok m) :
    m = .fail ∧ (∃ f ∈ fs, OkAt vreMatch tests le.last f r) ∨
      m = .ok ∧ ∀ f ∈ fs, ¬OkAt vreMatch tests le.last f r := by
  induction fs with
  | nil =>
    cases h
    exact .inr ⟨rfl, by simp⟩
  | cons f fs ih =>
    obtain ⟨le', ⟨e, hok⟩ | ⟨e, hno⟩⟩ :=
      logexpMatch_fail vreMatch r hm (hk f List.mem_cons_self)
    · simp only [failLoop, e, ok_bind] at h
      cases h
      exact .inl ⟨rfl, f, List.mem_cons_self, hok⟩
    · simp only [failLoop, e, ok_bind] at h
      have hk' : ∀ g ∈ fs, kind tests g = some .fail := fun g hg => hk g (List.mem_cons_of_mem f hg)
      rcases ih hk' h with ⟨rfl, g, hg, hok⟩ | ⟨rfl, hall⟩
      · exact .inl ⟨rfl, g, List.mem_cons_of_mem f hg, hok⟩
      · refine .inr ⟨rfl, fun g hg => ?_⟩
        rcases List.mem_cons.mp hg with rfl | hg
        · exact hno
        · exact hall g hg

/-! ## One record -/

/-- The state stands for the choice that the records so far have made. -/
structure Rep (tests : List (Test Vre)) (recs : List Record) (ch : Choice) (le : Logexp Vre) :
    Prop where
  marks : Marks tests ch le.tests
  «at» : At tests ch le
  cnt : ∀ d, Due tests ch d → le.skipCnt = recs.length - ch.upTo
  last : le.last = lastOf recs ch

theorem Rep.done_iff (h : Rep tests recs ch le) : logexpDone le = true ↔ Complete tests ch := by
  simp only [logexpDone, Bool.and_eq_true, List.isEmpty_iff, Option.isNone_iff_eq_none, Complete]
  constructor
  · rintro ⟨hf, ht⟩
    refine ⟨fun d hd => ?_, fun f hf' => ?_⟩
    · have := (h.at.test d).mpr hd
      rw [ht] at this
      cases this
    · have := (h.at.fail f).mpr hf'
      rw [hf] at this
      cases this
  · rintro ⟨hd, hf⟩
    refine ⟨List.eq_nil_iff_forall_not_mem.mpr fun f hf' => hf f ((h.at.fail f).mp hf'), ?_⟩
    cases ht : le.test with
    | none => rfl
    | some d => exact absurd ((h.at.test d).mp ht) (hd d)

theorem FailsAt.of_at {d : Nat} (h : At tests ch le) (hd : Due tests ch d) :
    FailsAt tests d le.fail :=
  fun f => (h.fail f).trans (hd.active_iff f)

theorem onAlt_iff {i : Nat} : onAlt le i = true ↔ kind le.tests i = some .alt := by
  rw [onAlt, kind, beq_iff_eq]

/-- `logexp_next` after test `i` was met. -/
theorem logexpNext_take {le' : Logexp Vre} {i d p : Nat} (hfr : Fresh tests)
    (hinv : Progress.Inv vreMatch tests recs ch) (hat : At tests ch le)
    (hd : Due tests ch d) (hi : Open tests ch i) (hm : Marks tests (ch ++ [(i, p)]) le.tests)
    (h : logexpNext le = .ok le') : At tests (ch ++ [(i, p)]) le' ∧ SameBut le le' := by
  have ht := (hat.test d).mpr hd
  simp only [logexpNext, ht] at h
  obtain ⟨t, htd, -⟩ := Option.map_eq_some_iff.mp hd.1.choose_spec.1
  have hfd := FailsAt.of_at hat hd
  have hkm : kind le.tests d = some (marked (ch ++ [(i, p)]) d t).skipMax := by
    rw [kind, hm d, htd]
    rfl
  by_cases hid : i = d
  · -- the cursor moves on from the test that was met
    subst hid
    have htk : Taken (ch ++ [(i, p)]) i := taken_append.mpr (.inr rfl)
    rw [if_neg] at h
    · refine logexpWalk_spec hfr _ hm rfl ?_ ?_ (hfd.succ ?_ ?_) h
      · intro j hj he
        rcases Nat.lt_succ_iff_lt_or_eq.mp hj with hlt | rfl
        · exact taken_append.mpr (.inl (hd.2.2 j hlt he))
        · exact htk
      · intro j hj hij k hk
        have hjch : Taken ch j := (taken_append.mp hj).resolve_right (by omega)
        rcases hinv.beyond i j hd hjch with hlt | hb
        · omega
        · exact hb k (by omega)
      · obtain ⟨k, hk, he⟩ := hd.1
        rw [hk]
        rintro ⟨⟩
        cases he
      · obtain ⟨k, hk, he⟩ := hd.1
        rw [hk]
        rintro ⟨⟩
        cases he
    · rw [onAlt_iff, hkm, marked]
      split
      · simp
      · rename_i hn
        exact fun e => hn ⟨Option.some.inj e, htk⟩
  · -- the test that is due is an alternative, and still waited for
    have hb : Block tests d i := by
      obtain ⟨-, d', hd', he | hb⟩ := hi
      · exact absurd (he.trans (hd'.unique hd)) hid
      · exact hd'.unique hd ▸ hb
    have hnt : ¬Taken (ch ++ [(i, p)]) d := fun hn =>
      (taken_append.mp hn).elim hd.2.1 fun e => hid e.symm
    have halt : t.skipMax = .alt := Option.some.inj ((kind_of_get htd).symm.trans hb.self_alt)
    rw [if_pos] at h
    · refine logexpWalk_spec hfr _ hm rfl hd.2.2.append (fun j hj hdj => ?_) hfd h
      rcases taken_append.mp hj with hj | rfl
      · rcases hinv.beyond d j hd hj with hlt | hb'
        · omega
        · exact hb'
      · exact hb
    · rw [onAlt_iff, hkm, marked, if_neg fun hn => hnt hn.2, halt]

/-- No fail specification that is active is met by the record. -/
def Unfailed (vreMatch : Vre → Bytes → Bool) (tests : List (Test Vre)) (recs : List Record)
    (ch : Choice) (r : Record) : Prop :=
  ∀ f, Active tests ch f → ¬OkAt vreMatch tests (lastOf recs ch) f r

theorem logexpFailchk_spec (hrep : Rep tests recs ch le) {m : LeMatch}
    (h : logexpFailchk vreMatch le r = .ok m) :
    m = .fail ∧ Offends vreMatch tests recs ch r ∨
      m ≠ .fail ∧ Unfailed vreMatch tests recs ch r := by
  rw [logexpFailchk] at h
  split at h
  · rename_i he
    cases h
    refine .inr ⟨by simp, fun f hf => ?_⟩
    rw [← hrep.at.fail f, List.isEmpty_iff.mp he] at hf
    cases hf
  · rw [Unfailed, Offends, ← hrep.last]
    rcases failLoop_spec hrep.marks le.fail (fun f hf => ((hrep.at.fail f).mp hf).1) h with
      ⟨rfl, f, hf, hok⟩ | ⟨rfl, hno⟩
    · exact .inl ⟨rfl, .inl ⟨f, (hrep.at.fail f).mp hf, hok⟩⟩
    · exact .inr ⟨by simp, fun f hf => hno f ((hrep.at.fail f).mpr hf)⟩

/-- What a record does: it offends, or the state moves with the choice. -/
def Moved (vreMatch : Vre → Bytes → Bool) (tests : List (Test Vre)) (recs : List Record)
    (ch : Choice) (r : Record) (d : Int × Logexp Vre) : Prop :=
  d.1 = 2 ∧ logexpDone d.2 = false ∧ Offends vreMatch tests recs ch r ∨
    ∃ ch', Progress vreMatch tests (recs ++ [r]) ch' ∧ Rep tests (recs ++ [r]) ch' d.2 ∧
      d.1 = if logexpDone d.2 then 1 else 0

theorem skipOne_eq_ok {le' : Logexp Vre} (h : skipOne le = .ok le') :
    le' = { le with skipCnt := le.skipCnt + 1 } := by
  unfold skipOne at h
  split at h
  · cases h
    rfl
  · cases h

theorem matchRecord_spec (hfr : Fresh tests) (hp : Progress vreMatch tests recs ch)
    (hrep : Rep tests recs ch le) (hf : Unfailed vreMatch tests recs ch r) {i : Nat}
    (ht : le.test = some i) {d : Int × Logexp Vre} (h : matchRecord vreMatch le r i = .ok d) :
    Moved vreMatch tests recs ch r d := by
  have hinv := hp.inv
  have hd := (hrep.at.test i).mp ht
  obtain ⟨m, hm, h⟩ := bind_eq_ok.mp h
  cases logexpMatch_due hfr hrep.marks hd hm with
  | @take j le' hj hok hmin hmk hle =>
    rw [hrep.last] at hok hmin
    obtain ⟨le2, hn, h⟩ := bind_eq_ok.mp h
    cases h
    have hat : At tests ch { le' with last := r.last, skipCnt := 0 } := by
      rw [hle]
      exact ⟨hrep.at.test, hrep.at.fail⟩
    obtain ⟨hat2, hsame, hcnt, hlast⟩ :=
      logexpNext_take hfr hinv hat hd hj (hmk recs.length) hn
    refine .inr ⟨_, hp.snoc hf (.take hj hok hmin), ⟨?_, hat2, fun d _ => ?_, ?_⟩, rfl⟩
    · rw [hsame]
      exact hmk recs.length
    · rw [hcnt, upTo_append, List.length_append, List.length_singleton, Nat.sub_self]
    · rw [hlast, lastOf_take]
  | @skip t htd hok hs =>
    rw [hrep.last] at hok hs
    rw [hrep.cnt i hd] at hs
    obtain ⟨le2, hn, h⟩ := bind_eq_ok.mp h
    cases h
    rw [skipOne_eq_ok hn]
    refine .inr ⟨ch, hp.snoc hf (.skip hd htd hok hs), ⟨hrep.marks, ⟨hrep.at.test, hrep.at.fail⟩,
      fun d hd => ?_, ?_⟩, by simp [logexpDone, ht]⟩
    · have := upTo_le hinv.bound
      show le.skipCnt + 1 = _
      rw [hrep.cnt d hd, List.length_append, List.length_singleton]
      omega
    · exact hrep.last.trans (lastOf_append hinv.bound).symm
  | @fail t htd hno hs =>
    rw [hrep.last] at hno hs
    rw [hrep.cnt i hd] at hs
    cases h
    exact .inl ⟨rfl, by simp [logexpDone, ht], .inr ⟨i, t, hd, htd, hno, hs⟩⟩

theorem dispatchRecord_spec (hfr : Fresh tests) (hp : Progress vreMatch tests recs ch)
    (hrep : Rep tests recs ch le) (hnd : logexpDone le = false) {d : Int × Logexp Vre}
    (h : dispatchRecord vreMatch le r = .ok d) : Moved vreMatch tests recs ch r d := by
  obtain ⟨m, hm, h⟩ := bind_eq_ok.mp h
  rcases logexpFailchk_spec hrep hm with ⟨rfl, hoff⟩ | ⟨hmf, hclean⟩
  · cases h
    exact .inl ⟨rfl, hnd, hoff⟩
  cases ht : le.test with
  | none =>
    -- only the fail list is left, and it is not empty
    have hnone : ∀ d, ¬Due tests ch d := by
      intro d hd
      rw [← hrep.at.test d, ht] at hd
      cases hd
    obtain ⟨f, hf⟩ : ∃ f, f ∈ le.fail := by
      rw [logexpDone, ht] at hnd
      exact List.exists_mem_of_ne_nil le.fail (by simpa using hnd)
    have hle : d = (0, le) := by
      rw [ht] at h
      cases m <;> cases h
      · rfl
      · exact absurd rfl hmf
    subst hle
    refine .inr ⟨ch, hp.snoc hclean (.wait hnone ((hrep.at.fail f).mp hf)), ?_, by simp [hnd]⟩
    exact ⟨hrep.marks, hrep.at, fun d hd => absurd hd (hnone d),
      hrep.last.trans (lastOf_append hp.inv.bound).symm⟩
  | some i =>
    have h' : matchRecord vreMatch le r i = .ok d := by
      rw [ht] at h
      cases m
      · exact h
      · exact h
      · exact absurd rfl hmf
    exact matchRecord_spec hfr hp hrep hclean ht h'

/-! ## The loops -/

/-- The records start with all that the tests ask for. -/
def Completed (vreMatch : Vre → Bytes → Bool) (tests : List (Test Vre)) (recs : List Record) :
    Prop :=
  ∃ pre post ch, recs = pre ++ post ∧ Progress vreMatch tests pre ch ∧ Complete tests ch

/-- Where the records have taken a loop that returns `status` if none of them stops it. -/
inductive Reached (vreMatch : Vre → Bytes → Bool) (tests : List (Test Vre)) (status : Int)
    (recs : List Record) : Int × Logexp Vre → Prop where
  | more {ch : Choice} {le : Logexp Vre} (hp : Progress vreMatch tests recs ch)
      (hr : Rep tests recs ch le) (hd : logexpDone le = false) :
      Reached vreMatch tests status recs (status, le)
  | done {le : Logexp Vre} (hc : Completed vreMatch tests recs) (hd : logexpDone le = true) :
      Reached vreMatch tests status recs (1, le)
  | failed {le : Logexp Vre} (hv : Violated vreMatch tests recs) (hd : logexpDone le = false) :
      Reached vreMatch tests status recs (2, le)

theorem Completed.append {post : List Record} (h : Completed vreMatch tests recs) :
    Completed vreMatch tests (recs ++ post) := by
  obtain ⟨pre, post', ch, rfl, hp, hc⟩ := h
  exact ⟨pre, post' ++ post, ch, List.append_assoc _ _ _, hp, hc⟩

theorem Violated.append {post : List Record} (h : Violated vreMatch tests recs) :
    Violated vreMatch tests (recs ++ post) := by
  obtain ⟨pre, r, post', ch, rfl, hp, ho⟩ := h
  exact ⟨pre, r, post' ++ post, ch, by simp, hp, ho⟩

theorem dispatchLoop_spec (hfr : Fresh tests) (rs : List Record) :
    ∀ {recs : List Record} {ch : Choice} {le : Logexp Vre} {d : Int × Logexp Vre},
      Progress vreMatch tests recs ch → Rep tests recs ch le → logexpDone le = false →
      dispatchLoop vreMatch le rs = .ok d →
      Reached vreMatch tests 0 (recs ++ rs.filter Record.shown) d := by
  induction rs with
  | nil =>
    intro recs ch le d hp hr hd h
    cases h
    rw [List.filter_nil, List.append_nil]
    exact .more hp hr hd
  | cons r rs ih =>
    intro recs ch le d hp hr hd h
    unfold dispatchLoop at h
    split at h
    · rename_i hs
      rw [List.filter_cons_of_pos hs, ← List.singleton_append, ← List.append_assoc]
      obtain ⟨⟨code, le1⟩, h1, h⟩ := bind_eq_ok.mp h
      rcases dispatchRecord_spec hfr hp hr hd h1 with ⟨rfl, hd1, ho⟩ | ⟨ch1, hp1, hr1, hcode⟩
      · cases h
        exact .failed (Violated.append ⟨recs, r, [], ch, rfl, hp, ho⟩) hd1
      · simp only at hcode hr1
        cases hd1 : logexpDone le1 with
        | true =>
          rw [hd1] at hcode
          subst hcode
          cases h
          exact .done (Completed.append ⟨_, [], ch1, by simp, hp1, hr1.done_iff.mp hd1⟩) hd1
        | false =>
          rw [hd1] at hcode
          subst hcode
          exact ih hp1 hr1 hd1 h
    · rename_i hs
      rw [List.filter_cons_of_neg hs]
      exact ih hp hr hd h

theorem vslqDispatch_spec (hfr : Fresh tests) {status : Int} (calls : List (List (List Record))) :
    ∀ {recs : List Record} {ch : Choice} {le : Logexp Vre} {d : Int × Logexp Vre},
      Progress vreMatch tests recs ch → Rep tests recs ch le → logexpDone le = false →
      vslqDispatch vreMatch le status calls = .ok d →
      Reached vreMatch tests status
        (recs ++ (calls.flatMap List.flatten).filter Record.shown) d := by
  induction calls with
  | nil =>
    intro recs ch le d hp hr hd h
    cases h
    rw [List.flatMap_nil, List.filter_nil, List.append_nil]
    exact .more hp hr hd
  | cons pt calls ih =>
    intro recs ch le d hp hr hd h
    unfold vslqDispatch at h
    obtain ⟨d1, h1, h⟩ := bind_eq_ok.mp h
    rw [List.flatMap_cons, List.filter_append, ← List.append_assoc]
    cases dispatchLoop_spec hfr pt.flatten hp hr hd h1 with
    | more hp1 hr1 hd1 => exact ih hp1 hr1 hd1 h
    | done hc hd1 =>
      cases h
      exact .done hc.append hd1
    | failed hv hd1 =>
      cases h
      exact .failed hv.append hd1

theorem given_cons (p : Poll) (ps : List Poll) :
    given (p :: ps) = (p.calls.flatMap List.flatten).filter Record.shown ++ given ps := by
  simp [given]

theorem threadLoop_of_done {errArg : Bool} (polls : List Poll) (hd : logexpDone le = true) :
    threadLoop vreMatch errArg le polls = .ok le := by
  cases polls <;> simp [threadLoop, hd]

/-- A thread that ends with `logexp_done` has seen all that the tests ask for. -/
theorem threadLoop_done (hfr : Fresh tests) {errArg : Bool} (polls : List Poll) :
    ∀ {recs : List Record} {ch : Choice} {le le' : Logexp Vre},
      Progress vreMatch tests recs ch → Rep tests recs ch le →
      threadLoop vreMatch errArg le polls = .ok le' → logexpDone le' = true →
      Completed vreMatch tests (recs ++ given polls) := by
  induction polls with
  | nil =>
    intro recs ch le le' hp hr h hd'
    unfold threadLoop at h
    split at h
    · rename_i hd
      exact Completed.append ⟨recs, [], ch, by simp, hp, hr.done_iff.mp hd⟩
    · cases h
  | cons p ps ih =>
    intro recs ch le le' hp hr h hd'
    unfold threadLoop at h
    rw [given_cons, ← List.append_assoc]
    split at h
    · rename_i hd
      exact Completed.append (Completed.append ⟨recs, [], ch, by simp, hp, hr.done_iff.mp hd⟩)
    rename_i hd
    split at h
    · cases h
    obtain ⟨d, h1, h⟩ := bind_eq_ok.mp h
    have hre := vslqDispatch_spec hfr p.calls hp hr (Bool.not_eq_true _ ▸ hd) h1
    cases hre with
    | more hp1 hr1 hd1 =>
      split at h
      · cases h
        simp [hd1] at hd'
      · split at h
        · cases h
        · exact ih hp1 hr1 h hd'
    | done hc hd1 => exact hc.append
    | failed hv hd1 =>
      split at h
      · cases h
        simp [hd1] at hd'
      · rw [if_pos (.inl rfl)] at h
        cases h

/-! ## The thread -/

theorem marks_nil : Marks tests [] tests := by
  intro i
  cases tests[i]? <;> simp [marked, Taken]

/-- The state after the first `logexp_next` stands for the empty choice. -/
theorem logexpNext_start {le' : Logexp Vre} (h : logexpNext (logexpStart le) = .ok le') :
    Rep (logexpClean le.tests) [] [] le' := by
  have hm : Marks (logexpClean le.tests) [] (logexpClean le.tests) := marks_nil
  obtain ⟨hat, ht, hc, hl⟩ := logexpWalk_spec (fresh_logexpClean le.tests) _ hm rfl
    (fun j hj => absurd hj (by omega)) (fun j hj => by cases hj) (fun f => by simp) h
  exact ⟨ht ▸ marks_nil, hat, fun _ _ => hc, hl⟩

variable (vreMatch) in
theorem logexpRun_eq (errArg : Bool) (le : Logexp Vre) (polls : List Poll) :
    logexpRun vreMatch errArg le polls =
      logexpNext (logexpStart le) >>= fun le => threadLoop vreMatch errArg le polls := rfl

/-- **A success is sound**: a run that ends with `logexp_done` has chosen one record for each test
that expects one, as the tests ask for. -/
theorem success_accounted (errArg : Bool) (le le' : Logexp Vre) (polls : List Poll)
    (h : logexpRun vreMatch errArg le polls = .ok le') (hd : logexpDone le' = true) :
    ∃ ch, Account vreMatch (logexpClean le.tests) (given polls) ch := by
  rw [logexpRun_eq] at h
  obtain ⟨le1, h1, h⟩ := bind_eq_ok.mp h
  obtain ⟨pre, post, ch, he, hp, hc⟩ :=
    threadLoop_done (fresh_logexpClean le.tests) polls .nil (logexpNext_start h1) h hd
  rw [List.nil_append] at he
  rw [he]
  exact ⟨ch, hp.account hc⟩

/-- Two alternatives and a test that may skip one record, under a fail specification. -/
def blockTests : List (Test Unit) := [
  { skipMax := .fail, tag := .is (.other 9) },
  { skipMax := .alt, tag := .is (.other 1) },
  { skipMax := .alt, tag := .is (.other 2) },
  { skipMax := .num 1, vxid := .last, tag := .is (.other 3), vre := some () },
  { skipMax := .clear }]

/-- The alternatives come in the other order. -/
def blockPolls : List Poll := [
  { calls := [[[⟨7, .other 2, [], true⟩, ⟨7, .batch, [], true⟩]], [[⟨7, .other 1, [], true⟩]]] },
  { calls := [[[⟨7, .other 5, [], true⟩], [⟨7, .other 3, [], true⟩, ⟨7, .other 9, [], true⟩]]] }]

theorem success_accounted_block :
    ∃ ch, Account (fun _ _ => true) (logexpClean blockTests) (given blockPolls) ch := by
  refine success_accounted false { tests := blockTests } _ blockPolls rfl ?_
  rfl

end Logexpect
end VTest
