import VTest.Logexpect.Model

/-!
# VTest.Logexpect.Decision

When a test matches a record. In `logexp_match` the wanted vxid and tag are integers, with `LE_ANY`
and `LE_LAST` among the negative ones, and so are `vxid_last` and `tag_last`.

* `logexpOk_raw`: on the integers of a test, the code computes `Test.ok` and `Test.vxidOk`.
* `logexp_ok_iff_holds`: where that is what the documentation says.
-/

namespace VTest
namespace Logexpect

variable {Vre : Type}

/-! ## Integers -/

def leAny : Int := -1

def leLast : Int := -2

/-- The fields of `struct logexp_test` that `logexp_match` compares. -/
structure RawTest (Vre : Type) where
  vxid : Int
  tag : Int
  vre : Option Vre

/-- `ok` behind the comparison of a value `v` of the record with a field of the test; `last` is the
value of the last record that matched. -/
def compareRaw (want last v : Int) (ok : Bool) : Bool :=
  if want = leLast then if last ≠ v then false else ok
  else if 0 ≤ want then if want ≠ v then false else ok
  else ok

/-- `ok` and `vxid_ok` of `logexp_match`, for a record with `vxid`, `tag` and `data`. -/
def logexpOk (vreMatch : Vre → Bytes → Bool) (test : RawTest Vre) (vxidLast tagLast vxid tag : Int)
    (data : Bytes) : Bool × Bool :=
  let ok := compareRaw test.vxid vxidLast vxid true
  -- `vxid_ok = ok` stands in both branches that compare
  let vxidOk := if test.vxid = leLast ∨ 0 ≤ test.vxid then ok else false
  let ok := compareRaw test.tag tagLast tag ok
  let ok :=
    match test.vre with
    | some v => if 0 ≤ test.tag ∧ test.tag = tag ∧ vreMatch v data = false then false else ok
    | none => ok
  (ok, vxidOk)

/-- The integer for a wanted value. -/
def Want.raw {α : Type} (num : α → Nat) : Want α → Int
  | .any => leAny
  | .last => leLast
  | .is a => num a

/-- The integer for the value of the last match, -1 if there was none. -/
def lastRaw {α : Type} (num : α → Nat) : Option α → Int
  | none => -1
  | some a => num a

/-- A test, where `num` are the numbers of the tags. -/
def Test.raw (num : Tag → Nat) (t : Test Vre) : RawTest Vre where
  vxid := t.vxid.raw id
  tag := t.tag.raw num
  vre := t.vre

section Raw

variable {α : Type} [DecidableEq α] {num : α → Nat} (hnum : Function.Injective num)

include hnum

theorem compareRaw_raw (w : Want α) (last : Option α) (v : α) (ok : Bool) :
    compareRaw (w.raw num) (lastRaw num last) (num v) ok = (ok && w.admits last v) := by
  rw [compareRaw]
  cases w with
  | any => simp [Want.raw, Want.admits, leAny, leLast]
  | last =>
    cases last with
    | none =>
      have hne : (-1 : Int) ≠ num v := by omega
      simp [Want.raw, Want.admits, lastRaw, hne]
    | some a => by_cases h : a = v <;> simp [Want.raw, Want.admits, lastRaw, h, hnum.eq_iff]
  | is a =>
    have hne : (num a : Int) ≠ leLast := by
      rw [leLast]
      omega
    rw [Want.raw, if_neg hne, if_pos (by omega)]
    by_cases h : a = v <;> simp [Want.admits, h, hnum.eq_iff]

end Raw

/-- The regular expression is looked at. -/
theorem vre_raw (vreMatch : Vre → Bytes → Bool) {num : Tag → Nat} (hnum : Function.Injective num)
    (t : Test Vre) (r : Record) (ok : Bool) :
    (match t.vre with
      | some v =>
        if 0 ≤ t.tag.raw num ∧ t.tag.raw num = num r.tag ∧ vreMatch v r.data = false then false
        else ok
      | none => ok) = (ok && !t.vreMiss vreMatch r) := by
  rw [Test.vreMiss]
  cases hv : t.vre with
  | none => simp
  | some v =>
    cases ht : t.tag with
    | any => simp [Want.raw, leAny]
    | last => simp [Want.raw, leLast]
    | is g => by_cases hg : g = r.tag <;> simp [Want.raw, hg, hnum.eq_iff, Bool.and_comm]

theorem logexpOk_raw (vreMatch : Vre → Bytes → Bool) {num : Tag → Nat}
    (hnum : Function.Injective num) (t : Test Vre) (last : Last) (r : Record) :
    logexpOk vreMatch (t.raw num) (lastRaw id last.vxid) (lastRaw num last.tag) r.vxid
        (num r.tag) r.data = (t.ok vreMatch last r, t.vxidOk last r) := by
  have hvxid : compareRaw (t.vxid.raw id) (lastRaw id last.vxid) r.vxid true =
      t.vxid.admits last.vxid r.vxid :=
    compareRaw_raw Function.injective_id t.vxid last.vxid r.vxid true
  have hok : t.vxidOk last r = if t.vxid.raw id = leLast ∨ 0 ≤ t.vxid.raw id then
      t.vxid.admits last.vxid r.vxid else false := by
    rw [Test.vxidOk]
    cases t.vxid with
    | any => simp [Want.raw, leAny, leLast]
    | last => simp [Want.raw]
    | is a => simp [Want.raw]
  simp only [logexpOk, Test.raw, hvxid, compareRaw_raw hnum, vre_raw vreMatch hnum, Test.ok, hok]

/-! ## Conditions -/

section Conditions

variable (vreMatch : Vre → Bytes → Bool)

/-- The conditions of a test hold: the record has the vxid and the tag it wants, and the regular
expression matches the data. -/
def Test.Holds (t : Test Vre) (last : Last) (r : Record) : Prop :=
  t.vxid.admits last.vxid r.vxid = true ∧ t.tag.admits last.tag r.tag = true ∧
    ∀ v, t.vre = some v → vreMatch v r.data = true

/-- The vxid and the tag are as wanted, but the test does not name its tag and its regular
expression, which does not match, is not looked at. -/
def Test.Blind (t : Test Vre) (last : Last) (r : Record) : Prop :=
  t.vxid.admits last.vxid r.vxid = true ∧ t.tag.admits last.tag r.tag = true ∧
    (∀ g, t.tag ≠ .is g) ∧ ∃ v, t.vre = some v ∧ vreMatch v r.data = false

theorem ok_iff_holds_or_blind (t : Test Vre) (last : Last) (r : Record) :
    t.ok vreMatch last r = true ↔ t.Holds vreMatch last r ∨ t.Blind vreMatch last r := by
  rw [Test.ok, Test.vreMiss, Test.Holds, Test.Blind]
  cases t.vxid.admits last.vxid r.vxid with
  | false => simp
  | true =>
    cases ht : t.tag with
    | any => cases hv : t.vre with
      | none => simp
      | some v => cases hm : vreMatch v r.data <;> simp [Want.admits, hm]
    | last => cases hv : t.vre with
      | none => simp
      | some v => cases hm : vreMatch v r.data <;> simp [hm]
    | is g => cases hv : t.vre with
      | none => simp
      | some v => by_cases hg : g = r.tag <;> simp [Want.admits, hg]

theorem Test.Blind.not_holds {t : Test Vre} {last : Last} {r : Record}
    (h : t.Blind vreMatch last r) : ¬t.Holds vreMatch last r := by
  obtain ⟨-, -, -, v, hv, hm⟩ := h
  intro hh
  exact Bool.false_ne_true (hm.symm.trans (hh.2.2 v hv))

/-- The decision is right but for a regular expression that stands with `*` or `=` as the tag. An
`expect` and a `fail` specification match just by this decision; an alternative at least if it is
positive. -/
theorem logexp_ok_iff_holds {num : Tag → Nat} (hnum : Function.Injective num) (t : Test Vre)
    (le : Logexp Vre) (r : Record) (i : Nat) (rest : List (Test Vre)) :
    let ok := (logexpOk vreMatch (t.raw num) (lastRaw id le.last.vxid) (lastRaw num le.last.tag)
      r.vxid (num r.tag) r.data).1
    ((ok = true ↔ t.Holds vreMatch le.last r) ↔ ¬t.Blind vreMatch le.last r) ∧
      (ok = true → (matchTest vreMatch le r i t rest).1 = .ok) ∧
      (t.skipMax ≠ .alt → (matchTest vreMatch le r i t rest).1 = .ok → ok = true) := by
  dsimp only
  rw [logexpOk_raw vreMatch hnum]
  have hok := ok_iff_holds_or_blind vreMatch t le.last r
  refine ⟨⟨fun h hb => ?_, fun hb => ?_⟩, fun h => ?_, fun halt h => ?_⟩
  · exact hb.not_holds vreMatch (h.mp (hok.mpr (.inr hb)))
  · exact hok.trans (or_iff_left hb)
  · rw [matchTest, if_pos h]
  · by_contra hno
    rw [matchTest, if_neg hno, if_neg halt] at h
    split at h <;> cases h

end Conditions

/-- Numbers for the tags. -/
def tagNum : Tag → Nat
  | .batch => 0
  | .witness => 1
  | .end_ => 2
  | .other n => n + 3

theorem tagNum_injective : Function.Injective tagNum := by
  intro a b h
  cases a <;> cases b <;> simp_all [tagNum]

/-- `expect 0 * other x`. -/
def tagRegex : Test Unit := { skipMax := .num 0, tag := .is (.other 1), vre := some () }

/-- `expect 0 * * x`. -/
def anyRegex : Test Unit := { skipMax := .num 0, vre := some () }

/-- A record without an `x` in its data. -/
def bareRecord : Record := { vxid := 7, tag := .other 1, data := [] }

theorem logexp_ok_iff_holds_tag :
    (logexpOk (fun _ _ => false) (tagRegex.raw tagNum) (-1) (-1) 7 4 []).1 = true ↔
      tagRegex.Holds (fun _ _ => false) {} bareRecord := by
  have h := (logexp_ok_iff_holds (fun _ _ => false) tagNum_injective tagRegex { tests := [] }
    bareRecord 0 []).1
  exact h.mpr fun hb => hb.2.2.1 _ rfl

/-- The record matches although its data does not. -/
theorem vre_ignored_without_tag :
    (logexpOk (fun _ _ => false) (anyRegex.raw tagNum) (-1) (-1) 7 4 []).1 = true ∧
      ¬anyRegex.Holds (fun _ _ => false) {} bareRecord :=
  ⟨by decide, fun h => Bool.false_ne_true (h.2.2 () rfl)⟩

end Logexpect
end VTest
