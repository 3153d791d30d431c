import VTest.Lib.Matching
import VTest.Logexpect.Model

/-!
# VTest.Logexpect.Block

The order of the records inside a block of alternatives.

In the middle of a block the cursor is on an alternative that was not seen; behind it some of the
others are marked. A record either meets one of the unmarked ones, which is then marked, or ends
the run. The cursor leaves the block with the last mark, and what it finds behind the block does
not depend on the order in which the marks were made.

* `block_order_free`: `k` records pass a block of `k` alternatives iff they meet them one to one,
  and then in any order with the same result.
-/

namespace VTest
namespace Logexpect

variable {Vre : Type}

/-! ## Alternatives, some of them seen -/

def Test.marked (t : Test Vre) : Test Vre := { t with skipMax := .seen }

/-- An alternative and whether it was seen, as it stands in the list. -/
def slotTest (s : Test Vre × Bool) : Test Vre := if s.2 then s.1.marked else s.1

def unseen : List (Test Vre × Bool) → List (Test Vre)
  | [] => []
  | (_, true) :: rest => unseen rest
  | (t, false) :: rest => t :: unseen rest

theorem unseen_append (a b : List (Test Vre × Bool)) : unseen (a ++ b) = unseen a ++ unseen b := by
  induction a with
  | nil => rfl
  | cons s a ih =>
    obtain ⟨t, m⟩ := s
    cases m <;> simp [unseen, ih]

/-- The block ends here: the next test is no alternative. -/
def Stops (post : List (Test Vre)) : Prop :=
  ∀ p ∈ post.head?, p.skipMax ≠ .alt ∧ p.skipMax ≠ .seen

/-- The first alternative that was not seen, if there is one. -/
theorem unseen_cases (rest : List (Test Vre × Bool)) :
    (unseen rest = [] ∧ ∀ s ∈ rest, s.2 = true) ∨
      ∃ d u r, rest = d ++ (u, false) :: r ∧ (∀ s ∈ d, s.2 = true) ∧
        unseen rest = u :: unseen r := by
  induction rest with
  | nil => exact .inl ⟨rfl, by simp⟩
  | cons s rest ih =>
    obtain ⟨t, m⟩ := s
    cases m with
    | false => exact .inr ⟨[], t, rest, rfl, by simp, rfl⟩
    | true =>
      rcases ih with ⟨h1, h2⟩ | ⟨d, u, r, h1, h2, h3⟩
      · exact .inl ⟨h1, by simpa using h2⟩
      · exact .inr ⟨(t, true) :: d, u, r, by rw [h1]; rfl, by simpa using h2, h3⟩

theorem map_slotTest_seen {rest : List (Test Vre × Bool)} (h : ∀ s ∈ rest, s.2 = true) :
    rest.map slotTest = rest.map fun s => s.1.marked := by
  apply List.map_congr_left
  intro s hs
  rw [slotTest, if_pos (h s hs)]

/-! ## The walk and the search over them -/

/-- The walk sets the cursor; where it was before does not matter. -/
theorem logexpWalk_test (le : Logexp Vre) (i : Option Nat) (n : Nat) (l : List (Test Vre)) :
    logexpWalk { le with test := i } n l = logexpWalk le n l := by
  induction l generalizing le n with
  | nil => rfl
  | cons t l ih =>
    unfold logexpWalk
    cases t.skipMax with
    | seen => exact ih le (n + 1)
    | clear => exact ih { le with fail := [] } (n + 1)
    | fail => exact ih { le with fail := le.fail ++ [n] } (n + 1)
    | _ => rfl

theorem logexpWalk_seen (le : Logexp Vre) {d : List (Test Vre × Bool)} (h : ∀ s ∈ d, s.2 = true)
    (n : Nat) (l : List (Test Vre)) :
    logexpWalk le n (d.map slotTest ++ l) = logexpWalk le (n + d.length) l := by
  induction d generalizing n with
  | nil => rfl
  | cons s d ih =>
    have hs : (slotTest s).skipMax = .seen := by
      rw [slotTest, if_pos (h s List.mem_cons_self)]
      rfl
    rw [List.map_cons, List.cons_append, logexpWalk, hs]
    dsimp only
    rw [ih (fun s' hs' => h s' (List.mem_cons_of_mem _ hs')), List.length_cons]
    congr 1
    omega

theorem logexpWalk_alt (le : Logexp Vre) {t : Test Vre} (h : t.skipMax = .alt) (n : Nat)
    (l : List (Test Vre)) : logexpWalk le n (t :: l) = .ok { le with test := some n } := by
  rw [logexpWalk, h]

section

variable (vreMatch : Vre → Bytes → Bool)

/-- The test says nothing about the last record. -/
def Test.Plain (t : Test Vre) : Prop := t.vxid ≠ .last ∧ t.tag ≠ .last

/-- The record is looked at, and the test takes it whatever the last one was. -/
def Test.Meets (t : Test Vre) (r : Record) : Prop := r.shown = true ∧ t.ok vreMatch {} r = true

instance (t : Test Vre) (r : Record) : Decidable (t.Meets vreMatch r) :=
  inferInstanceAs (Decidable (_ ∧ _))

end

variable {vreMatch : Vre → Bytes → Bool}

theorem admits_plain {α : Type} [DecidableEq α] {w : Want α} (h : w ≠ .last) (a b : Option α)
    (v : α) : w.admits a v = w.admits b v := by
  cases w with
  | last => exact absurd rfl h
  | any => rfl
  | is x => rfl

theorem Test.Plain.ok_eq {t : Test Vre} (h : t.Plain) (last last' : Last) (r : Record) :
    t.ok vreMatch last r = t.ok vreMatch last' r := by
  rw [Test.ok, Test.ok, admits_plain h.1 last.vxid last'.vxid, admits_plain h.2 last.tag last'.tag]

theorem Test.Plain.ok_iff {t : Test Vre} (h : t.Plain) {last : Last} {r : Record}
    (hr : r.shown = true) : t.ok vreMatch last r = true ↔ t.Meets vreMatch r := by
  rw [h.ok_eq last {}]
  exact ⟨fun h => ⟨hr, h⟩, fun h => h.2⟩

/-- The search passes over the alternatives that were seen and those that do not take the record. -/
theorem logexpAlt_skip (le : Logexp Vre) (r : Record) {a : List (Test Vre × Bool)}
    (halt : ∀ s ∈ a, s.1.skipMax = .alt)
    (hmiss : ∀ t ∈ unseen a, t.ok vreMatch le.last r = false) (n : Nat) (l : List (Test Vre)) :
    logexpAlt vreMatch le r n (a.map slotTest ++ l) = logexpAlt vreMatch le r (n + a.length) l := by
  induction a generalizing n with
  | nil => rfl
  | cons s a ih =>
    obtain ⟨t, m⟩ := s
    have halt' := fun s hs => halt s (List.mem_cons_of_mem _ hs)
    have hlen : n + ((t, m) :: a).length = n + 1 + a.length := by
      rw [List.length_cons]
      omega
    rw [List.map_cons, List.cons_append, hlen]
    cases m with
    | true =>
      rw [slotTest, if_pos rfl, logexpAlt]
      exact ih halt' hmiss (n + 1)
    | false =>
      have ht : t.skipMax = .alt := halt (t, false) List.mem_cons_self
      have hno : t.ok vreMatch le.last r = false := hmiss t List.mem_cons_self
      rw [slotTest, if_neg Bool.false_ne_true, logexpAlt, ht]
      dsimp only
      rw [hno, if_neg Bool.false_ne_true]
      exact ih halt' (fun t' ht' => hmiss t' (List.mem_cons_of_mem _ ht')) (n + 1)

theorem logexpAlt_stop (le : Logexp Vre) (r : Record) {post : List (Test Vre)}
    (hpost : Stops post) (n : Nat) : logexpAlt vreMatch le r n post = (.fail, le) := by
  cases post with
  | nil => rfl
  | cons p post =>
    obtain ⟨h1, h2⟩ := hpost p rfl
    rw [logexpAlt]
    cases hk : p.skipMax with
    | alt => exact absurd hk h1
    | seen => exact absurd hk h2
    | _ => rfl

theorem logexpAlt_hit (le : Logexp Vre) (r : Record) {u : Test Vre} (hu : u.skipMax = .alt)
    (hok : u.ok vreMatch le.last r = true) (n : Nat) (l : List (Test Vre)) :
    logexpAlt vreMatch le r n (u :: l) = (.ok, le.mark n) := by
  rw [logexpAlt, hu]
  dsimp only
  rw [if_pos hok]

/-! ## One record in a block -/

/-- The cursor is on `t`, an alternative that was not seen; `rest` is the block behind it. -/
structure InBlock (le : Logexp Vre) (pre : List (Test Vre)) (t : Test Vre)
    (rest : List (Test Vre × Bool)) (post : List (Test Vre)) : Prop where
  tests : le.tests = pre ++ t :: (rest.map slotTest ++ post)
  test : le.test = some pre.length
  fail : le.fail = []
  alt : t.skipMax = .alt
  restAlt : ∀ s ∈ rest, s.1.skipMax = .alt
  plain : t.Plain
  restPlain : ∀ s ∈ rest, s.1.Plain
  stops : Stops post

/-- What the cursor finds behind a block whose last mark was just made: `n` is the number of the
first test there, and `last` the record that was marked last. -/
def behind (tests : List (Test Vre)) (last : Last) (n : Nat) (post : List (Test Vre)) :
    Res (Int × Logexp Vre) := do
  let le ← logexpWalk { tests := tests, last := last } n post
  .ok (if logexpDone le then 1 else 0, le)

section

variable {le : Logexp Vre} {pre post : List (Test Vre)} {t u : Test Vre}
  {rest a b d : List (Test Vre × Bool)} {r : Record}

theorem mem_of_unseen {s : Test Vre} (h : s ∈ unseen rest) : (s, false) ∈ rest := by
  induction rest with
  | nil => cases h
  | cons x rest ih =>
    obtain ⟨t, m⟩ := x
    cases m with
    | true => exact List.mem_cons_of_mem _ (ih h)
    | false =>
      rcases List.mem_cons.mp h with rfl | h
      · exact List.mem_cons_self
      · exact List.mem_cons_of_mem _ (ih h)

/-- In a block, a record is matched against the test of the cursor and then along the block. -/
theorem InBlock.dispatchRecord (h : InBlock le pre t rest post) (r : Record) :
    dispatchRecord vreMatch le r =
      (match matchTest vreMatch le r pre.length t (rest.map slotTest ++ post) with
      | (.fail, le) => .ok (2, le)
      | (.skip, le) => skipOne le >>= fun le => .ok (0, le)
      | (.ok, le) => logexpNext { le with last := r.last, skipCnt := 0 } >>= fun le =>
          .ok (if logexpDone le then 1 else 0, le)) := by
  have hdrop : le.tests.drop pre.length = t :: (rest.map slotTest ++ post) := by
    rw [h.tests, List.drop_left]
  have hm : logexpMatch vreMatch le r pre.length =
      .ok (matchTest vreMatch le r pre.length t (rest.map slotTest ++ post)) := by
    rw [logexpMatch, hdrop]
    simp [h.alt]
  have hf : logexpFailchk vreMatch le r = .ok .skip := by
    rw [logexpFailchk, h.fail]
    rfl
  rw [Logexpect.dispatchRecord, hf, ok_bind, h.test]
  dsimp only
  rw [matchRecord, hm, ok_bind]
  rcases matchTest vreMatch le r pre.length t (rest.map slotTest ++ post) with ⟨m, le'⟩
  cases m <;> rfl

theorem InBlock.record_miss (h : InBlock le pre t rest post)
    (ht : t.ok vreMatch le.last r = false)
    (hrest : ∀ s ∈ unseen rest, s.ok vreMatch le.last r = false) :
    Logexpect.dispatchRecord vreMatch le r = .ok (2, le) := by
  have hm : matchTest vreMatch le r pre.length t (rest.map slotTest ++ post) = (.fail, le) := by
    rw [matchTest, ht, if_neg Bool.false_ne_true, if_pos h.alt, logexpAlt_skip le r h.restAlt hrest,
      logexpAlt_stop le r h.stops]
  rw [h.dispatchRecord, hm]

theorem Logexp.mark_append {le : Logexp Vre} {l l' : List (Test Vre)}
    (h : le.tests = l ++ t :: l') :
    le.mark l.length = { le with tests := l ++ t.marked :: l' } := by
  have hmod : (l ++ t :: l').modify l.length (fun t => { t with skipMax := .seen }) =
      l ++ t.marked :: l' := by
    clear h
    induction l with
    | nil => rfl
    | cons x l ih => simp [ih]
  rw [Logexp.mark, h, hmod]

/-- The record is one for the cursor's test: the cursor moves on over those seen before. -/
theorem InBlock.record_here (h : InBlock le pre t rest post)
    (ht : t.ok vreMatch le.last r = true) :
    Logexpect.dispatchRecord vreMatch le r =
      logexpWalk { tests := pre ++ t.marked :: (rest.map slotTest ++ post), last := r.last }
        (pre.length + 1) (rest.map slotTest ++ post) >>= fun le =>
          .ok (if logexpDone le then 1 else 0, le) := by
  have hm : matchTest vreMatch le r pre.length t (rest.map slotTest ++ post) =
      (.ok, { le with tests := pre ++ t.marked :: (rest.map slotTest ++ post) }) := by
    rw [matchTest, if_pos ht, if_pos h.alt, Logexp.mark_append h.tests]
  have hdrop : (pre ++ t.marked :: (rest.map slotTest ++ post)).drop (pre.length + 1) =
      rest.map slotTest ++ post := by
    simp [List.drop_append]
  rw [h.dispatchRecord, hm]
  dsimp only
  rw [logexpNext, h.test]
  dsimp only
  rw [if_neg (by simp [onAlt, Test.marked]), hdrop, h.fail]
  exact congrArg (· >>= _) (logexpWalk_test { tests := _, last := r.last } (some pre.length) _ _)

/-- The record is one for an alternative farther on: the cursor stays where it is. -/
theorem InBlock.record_there (h : InBlock le pre t (a ++ (u, false) :: b) post)
    (ht : t.ok vreMatch le.last r = false)
    (ha : ∀ s ∈ unseen a, s.ok vreMatch le.last r = false)
    (hu : u.ok vreMatch le.last r = true) :
    Logexpect.dispatchRecord vreMatch le r =
      .ok (0, { tests := pre ++ t :: ((a ++ (u, true) :: b).map slotTest ++ post),
                test := some pre.length, last := r.last }) := by
  have htests : le.tests = (pre ++ t :: a.map slotTest) ++ u :: (b.map slotTest ++ post) := by
    rw [h.tests]
    simp [slotTest]
  have hm : matchTest vreMatch le r pre.length t ((a ++ (u, false) :: b).map slotTest ++ post) =
      (.ok, { le with tests := pre ++ t :: ((a ++ (u, true) :: b).map slotTest ++ post) }) := by
    have hlist : (a ++ (u, false) :: b).map slotTest ++ post =
        a.map slotTest ++ u :: (b.map slotTest ++ post) := by
      simp [slotTest]
    have hlen : pre.length + 1 + a.length = (pre ++ t :: a.map slotTest).length := by
      simp only [List.length_append, List.length_cons, List.length_map]
      omega
    rw [matchTest, ht, if_neg Bool.false_ne_true, if_pos h.alt, hlist,
      logexpAlt_skip le r (fun s hs => h.restAlt s (by simp [hs])) ha,
      logexpAlt_hit le r (h.restAlt (u, false) (by simp)) hu, hlen, Logexp.mark_append htests]
    simp [slotTest]
  have hdrop : (pre ++ t :: ((a ++ (u, true) :: b).map slotTest ++ post)).drop pre.length =
      t :: ((a ++ (u, true) :: b).map slotTest ++ post) := List.drop_left
  rw [h.dispatchRecord, hm]
  dsimp only
  rw [logexpNext, h.test]
  dsimp only
  rw [if_pos (by simp [onAlt, h.alt]), hdrop, logexpWalk_alt _ h.alt, ok_bind, h.fail]
  rfl

/-! ## The records of a block -/

/-- The record goes with one test of the list only. -/
def Single (vreMatch : Vre → Bytes → Bool) (ts : List (Test Vre)) (r : Record) : Prop :=
  ts.Pairwise fun s s' => ¬(s.Meets vreMatch r ∧ s'.Meets vreMatch r)

instance (ts : List (Test Vre)) (r : Record) : Decidable (Single vreMatch ts r) :=
  inferInstanceAs (Decidable (List.Pairwise _ _))

theorem Single.others {ts ts' : List (Test Vre)} (h : Single vreMatch (ts ++ u :: ts') r)
    (hu : u.Meets vreMatch r) : ∀ v ∈ ts ++ ts', ¬v.Meets vreMatch r := by
  obtain ⟨_, htail, hcross⟩ := List.pairwise_append.mp h
  intro v hv hm
  rcases List.mem_append.mp hv with hv | hv
  · exact hcross v hv u List.mem_cons_self ⟨hm, hu⟩
  · exact (List.pairwise_cons.mp htail).1 v hv ⟨hu, hm⟩

theorem Single.drop {ts ts' : List (Test Vre)} (h : Single vreMatch (ts ++ u :: ts') r) :
    Single vreMatch (ts ++ ts') r :=
  List.Pairwise.sublist (List.Sublist.append_left (List.sublist_cons_self u ts') ts) h

/-- The tests when everything in the block was seen. -/
def allSeen (pre : List (Test Vre)) (t : Test Vre) (rest : List (Test Vre × Bool))
    (post : List (Test Vre)) : List (Test Vre) :=
  pre ++ t.marked :: (rest.map (fun s => s.1.marked) ++ post)

/-- What is left of a block after a record that met `u`. -/
structure GoesOn (vreMatch : Vre → Bytes → Bool) (le : Logexp Vre) (pre : List (Test Vre))
    (t : Test Vre) (rest : List (Test Vre × Bool)) (post : List (Test Vre)) (r : Record)
    (le' : Logexp Vre) (pre' : List (Test Vre)) (t' : Test Vre)
    (rest' : List (Test Vre × Bool)) : Prop where
  step : Logexpect.dispatchRecord vreMatch le r = .ok (0, le')
  inBlock : InBlock le' pre' t' rest' post
  one : ∃ us u us', t :: unseen rest = us ++ u :: us' ∧ t' :: unseen rest' = us ++ us' ∧
    u.Meets vreMatch r
  tests : allSeen pre' t' rest' post = allSeen pre t rest post
  length : pre'.length + rest'.length = pre.length + rest.length
  last : le'.last = r.last

theorem GoesOn.end_eq {le' : Logexp Vre} {pre' : List (Test Vre)} {t' : Test Vre}
    {rest' : List (Test Vre × Bool)} (h : GoesOn vreMatch le pre t rest post r le' pre' t' rest') :
    pre'.length + 1 + rest'.length = pre.length + 1 + rest.length := by
  have := h.length
  omega

theorem InBlock.goesOn_here {v : Test Vre}
    (h : InBlock le pre t (d ++ (v, false) :: b) post) (hr : r.shown = true)
    (hd : ∀ s ∈ d, s.2 = true) (hv : unseen (d ++ (v, false) :: b) = v :: unseen b)
    (ht : t.Meets vreMatch r) :
    ∃ le', GoesOn vreMatch le pre t (d ++ (v, false) :: b) post r le'
      (pre ++ t.marked :: d.map slotTest) v b := by
  have hvalt : v.skipMax = .alt := h.restAlt (v, false) (by simp)
  have hlist : (d ++ (v, false) :: b).map slotTest ++ post =
      d.map slotTest ++ v :: (b.map slotTest ++ post) := by
    simp [slotTest]
  have hstep := h.record_here ((h.plain.ok_iff hr).mpr ht)
  rw [hlist, logexpWalk_seen _ hd, logexpWalk_alt _ hvalt, ok_bind] at hstep
  refine ⟨_, hstep, ?_, ⟨[], t, v :: unseen b, by rw [hv]; rfl, rfl, ht⟩, ?_, ?_, rfl⟩
  · refine ⟨?_, ?_, rfl, hvalt, fun s hs => h.restAlt s (by simp [hs]),
      h.restPlain (v, false) (by simp), fun s hs => h.restPlain s (by simp [hs]), h.stops⟩
    · simp
    · simp only [List.length_append, List.length_cons, List.length_map]
      congr 1
      omega
  · rw [allSeen, allSeen, map_slotTest_seen hd]
    simp
  · simp only [List.length_append, List.length_cons, List.length_map]
    omega

/-- A mark does not change which tests stand in the block. -/
theorem forall_marked (P : Test Vre → Prop) (h : ∀ s ∈ a ++ (u, false) :: b, P s.1) :
    ∀ s ∈ a ++ (u, true) :: b, P s.1 := by
  intro s hs
  rcases List.mem_append.mp hs with hs | hs
  · exact h s (by simp [hs])
  · rcases List.mem_cons.mp hs with rfl | hs
    · exact h (u, false) (by simp)
    · exact h s (by simp [hs])

theorem InBlock.goesOn_there (h : InBlock le pre t (a ++ (u, false) :: b) post)
    (hr : r.shown = true) (ht : ¬t.Meets vreMatch r)
    (ha : ∀ s ∈ unseen a, ¬s.Meets vreMatch r) (hu : u.Meets vreMatch r) :
    ∃ le', GoesOn vreMatch le pre t (a ++ (u, false) :: b) post r le' pre t
      (a ++ (u, true) :: b) := by
  have hno {s : Test Vre} (hs : s.Plain) (hm : ¬s.Meets vreMatch r) :
      s.ok vreMatch le.last r = false := by
    rw [← Bool.not_eq_true, hs.ok_iff hr]
    exact hm
  have huPlain : u.Plain := h.restPlain (u, false) (by simp)
  have haPlain : ∀ s ∈ unseen a, s.Plain := by
    intro s hs
    have hmem := mem_of_unseen hs
    exact h.restPlain (s, false) (by simp [hmem])
  have hstep := h.record_there (hno h.plain ht) (fun s hs => hno (haPlain s hs) (ha s hs))
    ((huPlain.ok_iff hr).mpr hu)
  refine ⟨_, hstep, ?_, ⟨t :: unseen a, u, unseen b, ?_, ?_, hu⟩, ?_, ?_, rfl⟩
  · exact ⟨rfl, rfl, rfl, h.alt, forall_marked (fun t => t.skipMax = .alt) h.restAlt, h.plain,
      forall_marked Test.Plain h.restPlain, h.stops⟩
  · rw [unseen_append]
    rfl
  · rw [unseen_append]
    rfl
  · simp [allSeen]
  · simp

/-- The first alternative that the record meets. -/
theorem unseen_find (vreMatch : Vre → Bytes → Bool) (r : Record)
    (rest : List (Test Vre × Bool)) :
    (∀ s ∈ unseen rest, ¬s.Meets vreMatch r) ∨
      ∃ a u b, rest = a ++ (u, false) :: b ∧ (∀ s ∈ unseen a, ¬s.Meets vreMatch r) ∧
        u.Meets vreMatch r := by
  induction rest with
  | nil => exact .inl (by simp [unseen])
  | cons s rest ih =>
    obtain ⟨t, m⟩ := s
    by_cases hhere : m = false ∧ t.Meets vreMatch r
    · obtain ⟨rfl, ht⟩ := hhere
      exact .inr ⟨[], t, rest, rfl, by simp [unseen], ht⟩
    · have hskip : ∀ l, (∀ s ∈ unseen l, ¬s.Meets vreMatch r) →
          ∀ s ∈ unseen ((t, m) :: l), ¬s.Meets vreMatch r := by
        intro l hl
        cases m with
        | true => exact hl
        | false =>
          intro s hs
          rcases List.mem_cons.mp hs with rfl | hs
          · exact fun h => hhere ⟨rfl, h⟩
          · exact hl s hs
      rcases ih with hmiss | ⟨a, u, b, rfl, ha, hu⟩
      · exact .inl (hskip rest hmiss)
      · exact .inr ⟨(t, m) :: a, u, b, rfl, hskip a ha, hu⟩

/-- What a record that is looked at does to a block: it ends the run, it is the last one of the
block, or the block goes on without the alternative it met. -/
theorem InBlock.record_cases (vreMatch : Vre → Bytes → Bool)
    (h : InBlock le pre t rest post) (hr : r.shown = true) :
    ((∀ s ∈ t :: unseen rest, ¬s.Meets vreMatch r) ∧
        Logexpect.dispatchRecord vreMatch le r = .ok (2, le)) ∨
      (unseen rest = [] ∧ t.Meets vreMatch r ∧
        Logexpect.dispatchRecord vreMatch le r =
          behind (allSeen pre t rest post) r.last (pre.length + 1 + rest.length) post) ∨
      ∃ le' pre' t' rest', GoesOn vreMatch le pre t rest post r le' pre' t' rest' := by
  by_cases ht : t.Meets vreMatch r
  · rcases unseen_cases rest with ⟨hnone, hall⟩ | ⟨d, v, b, rfl, hd, hv⟩
    · have hstep := h.record_here ((h.plain.ok_iff hr).mpr ht)
      rw [logexpWalk_seen _ hall, map_slotTest_seen hall] at hstep
      exact .inr (.inl ⟨hnone, ht, hstep⟩)
    · obtain ⟨le', hgo⟩ := h.goesOn_here hr hd hv ht
      exact .inr (.inr ⟨le', _, v, b, hgo⟩)
  · rcases unseen_find vreMatch r rest with hmiss | ⟨a, u, b, rfl, ha, hu⟩
    · have hno : ∀ s ∈ t :: unseen rest, s.Plain := by
        intro s hs
        rcases List.mem_cons.mp hs with rfl | hs
        · exact h.plain
        · exact h.restPlain (s, false) (mem_of_unseen hs)
      have hall : ∀ s ∈ t :: unseen rest, ¬s.Meets vreMatch r :=
        List.forall_mem_cons.mpr ⟨ht, hmiss⟩
      have hok : ∀ s ∈ t :: unseen rest, s.ok vreMatch le.last r = false := by
        intro s hs
        rw [← Bool.not_eq_true, (hno s hs).ok_iff hr]
        exact hall s hs
      exact .inl ⟨hall, h.record_miss (hok t List.mem_cons_self)
        fun s hs => hok s (List.mem_cons_of_mem _ hs)⟩
    · obtain ⟨le', hgo⟩ := h.goesOn_there hr ht ha hu
      exact .inr (.inr ⟨le', _, _, _, hgo⟩)

/-- `vxid_last` and `tag_last` after the records were matched. -/
def lastAmong (rs : List Record) (last : Last) : Last := (rs.getLast?.map Record.last).getD last

theorem lastAmong_cons_cons (r r' : Record) (rs : List Record) (l l' : Last) :
    lastAmong (r :: r' :: rs) l = lastAmong (r' :: rs) l' := by
  rw [lastAmong, lastAmong, List.getLast?_cons_cons, List.getLast?_cons]
  rfl

theorem behind_loop (tests : List (Test Vre)) (last : Last) (n : Nat) (post : List (Test Vre)) :
    (behind tests last n post >>= fun d =>
      if d.1 = 0 then dispatchLoop vreMatch d.2 [] else .ok d) = behind tests last n post := by
  cases behind tests last n post with
  | error e => rfl
  | ok d =>
    obtain ⟨c, le'⟩ := d
    rw [ok_bind]
    dsimp only
    split
    · rename_i hc
      rw [hc, dispatchLoop]
    · rfl

/-- Records that meet the alternatives one to one bring the cursor behind the block. -/
theorem InBlock.dispatch_pairs (recs : List Record) :
    ∀ {le : Logexp Vre} {pre : List (Test Vre)} {t : Test Vre} {rest : List (Test Vre × Bool)},
      InBlock le pre t rest post → (∀ r ∈ recs, Single vreMatch (t :: unseen rest) r) →
      Pairs (Test.Meets vreMatch) (t :: unseen rest) recs →
      dispatchLoop vreMatch le recs =
        behind (allSeen pre t rest post) (lastAmong recs le.last) (pre.length + 1 + rest.length)
          post := by
  induction recs with
  | nil =>
    intro le pre t rest _ _ hp
    exact absurd hp.length_eq (by simp)
  | cons r rs ih =>
    intro le pre t rest h hone hp
    obtain ⟨us1, w, us2, hsplit, hw, _⟩ := hp.exists_of_cons
    have hwmem : w ∈ t :: unseen rest := by
      rw [hsplit]
      simp
    have hr : r.shown = true := hw.1
    rw [dispatchLoop, if_pos hr]
    rcases h.record_cases vreMatch hr with
      ⟨hmiss, _⟩ | ⟨hnone, _, hstep⟩ | ⟨le', pre', t', rest', hgo⟩
    · exact absurd hw (hmiss w hwmem)
    · have hrs : rs = [] := by
        have hlen := hp.length_eq
        rw [hnone] at hlen
        simpa using hlen.symm
      rw [hrs, hstep, behind_loop]
      rfl
    · obtain ⟨us, u, us', hold, hnew, hu⟩ := hgo.one
      have honly := (hold ▸ hone r List.mem_cons_self).others hu
      have hp' : Pairs (Test.Meets vreMatch) (t' :: unseen rest') rs := by
        rw [hnew]
        exact (hold ▸ hp).remove honly
      have hone' : ∀ r' ∈ rs, Single vreMatch (t' :: unseen rest') r' := by
        intro r' hr'
        rw [hnew]
        exact (hold ▸ hone r' (List.mem_cons_of_mem _ hr')).drop
      rw [hgo.step, ok_bind, if_pos rfl]
      rw [ih hgo.inBlock hone' hp', hgo.tests, hgo.end_eq, hgo.last]
      cases rs with
      | nil => exact absurd hp'.length_eq (by simp)
      | cons r' rs => rw [lastAmong_cons_cons r r' rs le.last r.last]

/-- The cursor is past the tests before number `n`, or `abort` was found behind them. -/
def Passed (n : Nat) : Res (Int × Logexp Vre) → Prop
  | .ok (c, le) => c ≠ 2 ∧ ∀ i, le.test = some i → n ≤ i
  | .error e => e = .assert

/-- The cursor never passes the block on fewer or other records. -/
theorem InBlock.pairs_of_passed (recs : List Record) :
    ∀ {le : Logexp Vre} {pre : List (Test Vre)} {t : Test Vre} {rest : List (Test Vre × Bool)},
      InBlock le pre t rest post → recs.length ≤ (t :: unseen rest).length →
      Passed (pre.length + 1 + rest.length) (dispatchLoop vreMatch le recs) →
      Pairs (Test.Meets vreMatch) (t :: unseen rest) recs := by
  induction recs with
  | nil =>
    intro le pre t rest h _ hpass
    have := hpass.2 pre.length h.test
    omega
  | cons r rs ih =>
    intro le pre t rest h hle hpass
    rw [List.length_cons] at hle
    rw [dispatchLoop] at hpass
    by_cases hr : r.shown = true
    · rw [if_pos hr] at hpass
      rcases h.record_cases vreMatch hr with
        ⟨_, hstep⟩ | ⟨hnone, ht, _⟩ | ⟨le', pre', t', rest', hgo⟩
      · rw [hstep] at hpass
        exact absurd rfl hpass.1
      · rw [hnone] at hle ⊢
        have hrs : rs = [] := by simpa using hle
        rw [hrs]
        exact .cons ht .nil
      · obtain ⟨us, u, us', hold, hnew, hu⟩ := hgo.one
        rw [hgo.step, ok_bind, if_pos rfl] at hpass
        have hcount : (t :: unseen rest).length = (t' :: unseen rest').length + 1 := by
          rw [hold, hnew]
          simp only [List.length_append, List.length_cons]
          omega
        rw [← hgo.end_eq] at hpass
        have hp := ih hgo.inBlock (by omega) hpass
        rw [hold]
        exact (hnew ▸ hp).insert hu
    · -- a record that is not looked at leaves one alternative without a record
      rw [if_neg hr] at hpass
      have hp := ih h (by omega) hpass
      have := hp.length_eq
      omega

end

/-! ## The block as a whole -/

/-- The cursor is on the first test of a block of alternatives none of which was seen. -/
structure AtBlock (le : Logexp Vre) (pre blk post : List (Test Vre)) : Prop where
  tests : le.tests = pre ++ blk ++ post
  test : le.test = some pre.length
  fail : le.fail = []
  nonempty : blk ≠ []
  alt : ∀ t ∈ blk, t.skipMax = .alt
  plain : ∀ t ∈ blk, t.Plain
  stops : Stops post

theorem unseen_fresh (ts : List (Test Vre)) : unseen (ts.map fun t => (t, false)) = ts := by
  induction ts with
  | nil => rfl
  | cons t ts ih => simp [unseen, ih]

theorem map_slotTest_fresh (ts : List (Test Vre)) :
    (ts.map fun t => (t, false)).map slotTest = ts := by
  induction ts with
  | nil => rfl
  | cons t ts ih => simpa [slotTest] using ih

theorem AtBlock.inBlock {le : Logexp Vre} {pre ts post : List (Test Vre)} {t : Test Vre}
    (h : AtBlock le pre (t :: ts) post) : InBlock le pre t (ts.map fun t => (t, false)) post where
  tests := by
    rw [h.tests, map_slotTest_fresh]
    simp
  test := h.test
  fail := h.fail
  alt := h.alt t List.mem_cons_self
  restAlt := by
    intro s hs
    obtain ⟨x, hx, rfl⟩ := List.mem_map.mp hs
    exact h.alt x (List.mem_cons_of_mem _ hx)
  plain := h.plain t List.mem_cons_self
  restPlain := by
    intro s hs
    obtain ⟨x, hx, rfl⟩ := List.mem_map.mp hs
    exact h.plain x (List.mem_cons_of_mem _ hx)
  stops := h.stops

/-- The walk does not look at the last record. -/
theorem logexpWalk_last (le : Logexp Vre) (last : Last) (n : Nat) (l : List (Test Vre)) :
    logexpWalk { le with last := last } n l =
      (logexpWalk le n l).map fun le => { le with last := last } := by
  induction l generalizing le n with
  | nil => rfl
  | cons t l ih =>
    unfold logexpWalk
    cases t.skipMax with
    | seen => exact ih le (n + 1)
    | clear => exact ih { le with fail := [] } (n + 1)
    | fail => exact ih { le with fail := le.fail ++ [n] } (n + 1)
    | _ => rfl

theorem behind_last (tests : List (Test Vre)) (last last' : Last) (n : Nat)
    (post : List (Test Vre)) :
    behind tests last' n post =
      (behind tests last n post).map fun d => (d.1, { d.2 with last := last' }) := by
  have hw := logexpWalk_last { tests := tests, last := last } last' n post
  rw [behind, behind]
  rw [hw]
  cases logexpWalk { tests := tests, last := last } n post with
  | error e => rfl
  | ok le => rfl

/-- The walk goes forward, and `abort` is all that can stop it. -/
theorem passed_behind (tests : List (Test Vre)) (last : Last) (n : Nat) (post : List (Test Vre)) :
    Passed n (behind tests last n post) := by
  have hwalk : ∀ (le : Logexp Vre) (k : Nat), n ≤ k →
      match logexpWalk le k post with
      | .ok le' => ∀ i, le'.test = some i → n ≤ i
      | .error e => e = .assert := by
    induction post with
    | nil => exact fun le k _ => nofun
    | cons t post ih =>
      intro le k hk
      unfold logexpWalk
      cases t.skipMax with
      | seen => exact ih le (k + 1) (by omega)
      | clear => exact ih { le with fail := [] } (k + 1) (by omega)
      | fail => exact ih { le with fail := le.fail ++ [k] } (k + 1) (by omega)
      | abort => rfl
      | _ =>
        intro i hi
        cases hi
        exact hk
  have h := hwalk { tests := tests, last := last } n (Nat.le_refl n)
  rw [behind]
  revert h
  cases logexpWalk { tests := tests, last := last } n post with
  | error e => exact id
  | ok le =>
    intro h
    refine ⟨?_, h⟩
    split <;> decide

/-- A block of `k` alternatives with nothing about the last record, and `k` records each of which
goes with one alternative at most. They bring the cursor past the block iff they meet the
alternatives one to one, and then the result is the same for every order, except for the last
record. -/
theorem block_order_free {le : Logexp Vre} {pre blk post : List (Test Vre)}
    (h : AtBlock le pre blk post) {pt : List (List Record)}
    (hlen : pt.flatten.length = blk.length) (hone : ∀ r ∈ pt.flatten, Single vreMatch blk r) :
    (Passed (pre.length + blk.length) (logexpDispatch vreMatch le pt) ↔
        Pairs (Test.Meets vreMatch) blk pt.flatten) ∧
      (Pairs (Test.Meets vreMatch) blk pt.flatten → ∀ pt', pt'.flatten.Perm pt.flatten →
        logexpDispatch vreMatch le pt' = (logexpDispatch vreMatch le pt).map fun d =>
          (d.1, { d.2 with last := lastAmong pt'.flatten le.last })) := by
  cases blk with
  | nil => exact absurd rfl h.nonempty
  | cons t ts =>
    have hin := h.inBlock
    have hun := unseen_fresh ts
    have hn : pre.length + 1 + (ts.map fun t => (t, false)).length =
        pre.length + (t :: ts).length := by
      rw [List.length_map, List.length_cons]
      omega
    have hrun : ∀ recs, (∀ r ∈ recs, Single vreMatch (t :: ts) r) →
        Pairs (Test.Meets vreMatch) (t :: ts) recs → dispatchLoop vreMatch le recs =
          behind (allSeen pre t (ts.map fun t => (t, false)) post) (lastAmong recs le.last)
            (pre.length + (t :: ts).length) post := by
      intro recs hrecs hp
      rw [← hn]
      exact hin.dispatch_pairs recs (hun.symm ▸ hrecs) (hun.symm ▸ hp)
    refine ⟨⟨fun hpass => ?_, fun hp => ?_⟩, fun hp pt' hperm => ?_⟩
    · rw [← hn] at hpass
      have hp := hin.pairs_of_passed pt.flatten (by rw [hun]; exact hlen.le) hpass
      rwa [hun] at hp
    · rw [logexpDispatch, hrun _ hone hp]
      exact passed_behind _ _ _ _
    · have hone' : ∀ r ∈ pt'.flatten, Single vreMatch (t :: ts) r :=
        fun r hr => hone r (hperm.mem_iff.mp hr)
      rw [logexpDispatch, logexpDispatch, hrun _ hone hp, hrun _ hone' (hp.perm hperm.symm)]
      exact behind_last _ _ _ _ _

def altTest (n : Nat) : Test Unit := { skipMax := .alt, tag := .is (.other n) }

def tagRecord (n : Nat) : Record := ⟨7, .other n, [], true⟩

/-- `expect ? * A`, `expect ? * B` and `expect 0 * *`, with the cursor on the first. -/
def twoAlternatives : Logexp Unit :=
  { tests := [altTest 1, altTest 2, { skipMax := .num 0 }], test := some 0 }

theorem atBlock_twoAlternatives :
    AtBlock twoAlternatives [] [altTest 1, altTest 2] [{ skipMax := .num 0 }] where
  tests := rfl
  test := rfl
  fail := rfl
  nonempty := by simp
  alt := by simp [altTest]
  plain := by simp [altTest, Test.Plain]
  stops := by simp [Stops]

theorem block_order_free_two :
    Passed 2 (logexpDispatch (fun _ _ => true) twoAlternatives [[tagRecord 2], [tagRecord 1]]) ∧
      logexpDispatch (fun _ _ => true) twoAlternatives [[tagRecord 1, tagRecord 2]] =
        (logexpDispatch (fun _ _ => true) twoAlternatives [[tagRecord 2], [tagRecord 1]]).map
          fun d => (d.1, { d.2 with last := (tagRecord 2).last }) := by
  have hfree := @block_order_free Unit (fun _ _ => true) _ _ _ _ atBlock_twoAlternatives
    [[tagRecord 2], [tagRecord 1]] rfl (by decide)
  have hpairs : Pairs (Test.Meets fun _ _ => true) [altTest 1, altTest 2]
      [tagRecord 2, tagRecord 1] :=
    ⟨[tagRecord 1, tagRecord 2], .swap _ _ _, .cons (by decide) (.cons (by decide) .nil)⟩
  exact ⟨hfree.1.mpr hpairs, hfree.2 hpairs [[tagRecord 1, tagRecord 2]] (.swap _ _ _)⟩

end Logexpect
end VTest
