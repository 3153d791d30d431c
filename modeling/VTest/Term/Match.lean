import VTest.Term.Vram

/-!
# VTest.Term.Match

What `term_match_text` looks at. The loop appends a newline to each row, and `len` counts the
columns of the rows only, so the subject is as many bytes too short as there are rows.

* `matchSubject_eq`: the subject, as a part of the selected area.
* `match_text_sees_area_iff`: it is the whole of it, but for the last newline, on a single row only.
-/

namespace VTest
namespace Term

/-- The rows from `line` on, each from `column` on and with a newline. Lines and columns are
numbered from one, and 0 is as good as 1. -/
def selected (pp : Process) (line column : Nat) : Bytes :=
  (pp.rows.drop (max line 1 - 1)).flatMap fun row =>
    (row.take pp.ncol).drop (max column 1 - 1) ++ [10]

section

variable {pp : Process}

theorem Process.Sized.drop_rows (h : pp.Sized) {y : Nat} (hy : y < pp.nlin) :
    pp.rows.drop y = pp.row y :: pp.rows.drop (y + 1) := by
  have hlt : y < pp.rows.length := by
    rw [h.nlin]
    exact hy
  rw [List.drop_eq_getElem_cons hlt, Process.row, List.getD_eq_getElem _ _ hlt]

theorem matchRows_run (h : pp.Sized) {x : Nat} (hx : x ≤ pp.ncol) (n : Nat) :
    ∀ (y : Nat) (vsb : Bytes), y + n = pp.nlin →
      run (matchRows pp x) vsb (List.range' y n) =
        .ok (vsb ++ (pp.rows.drop y).flatMap fun row => (row.take pp.ncol).drop x ++ [10]) := by
  induction n with
  | zero =>
    intro y vsb hy
    rw [List.drop_of_length_le (by rw [h.nlin]; omega), List.flatMap_nil, List.append_nil]
    rfl
  | succ n ih =>
    intro y vsb hy
    have hlt : y < pp.nlin := by omega
    have hload := @Process.Sized.loadRow pp h y x (pp.ncol - x) hlt (by omega)
    rw [List.range'_succ, run_cons, matchRows, hload, ok_bind, pure_res, ok_bind,
      ih (y + 1) _ (by omega), h.drop_rows hlt, List.flatMap_cons, List.drop_take]
    simp only [List.append_assoc]

theorem length_selected_rows {rows : List Bytes} {col x : Nat}
    (h : ∀ row ∈ rows, row.length = col + 1) :
    (rows.flatMap fun row => (row.take col).drop x ++ [10]).length =
      rows.length * (col - x + 1) := by
  induction rows with
  | nil => exact (Nat.zero_mul _).symm
  | cons row rows ih =>
    obtain ⟨hrow, hrows⟩ := List.forall_mem_cons.mp h
    have hlen : ((row.take col).drop x ++ [10]).length = col - x + 1 := by
      rw [List.length_append, List.length_drop, List.length_take, hrow, List.length_singleton]
      omega
    rw [List.flatMap_cons, List.length_append, hlen, ih hrows, List.length_cons, Nat.succ_mul,
      Nat.add_comm]

theorem Process.Sized.length_selected (h : pp.Sized) (line column : Nat) :
    (selected pp line column).length =
      (pp.nlin - (max line 1 - 1)) * (pp.ncol - (max column 1 - 1) + 1) := by
  have hrows : ∀ row ∈ pp.rows.drop (max line 1 - 1), row.length = pp.ncol + 1 := by
    intro row hrow
    obtain ⟨i, hi, rfl⟩ := List.mem_iff_getElem.mp (List.mem_of_mem_drop hrow)
    have hlen := h.ncol i (by rw [← h.nlin]; exact hi)
    rw [Process.row, List.getD_eq_getElem _ _ hi] at hlen
    exact hlen
  rw [selected, length_selected_rows hrows, List.length_drop, h.nlin]

/-- Rows without columns are newlines. -/
theorem selected_of_narrow {line column : Nat} (hx : pp.ncol ≤ max column 1 - 1) :
    ∀ b ∈ selected pp line column, b ≠ 0 := by
  intro b hb
  obtain ⟨row, _, hb⟩ := List.mem_flatMap.mp hb
  have hnil : (row.take pp.ncol).drop (max column 1 - 1) = [] :=
    List.drop_of_length_le ((List.length_take_le _ _).trans hx)
  rw [hnil, List.nil_append, List.mem_singleton] at hb
  rw [hb]
  decide

theorem selected_last (pp : Process) (line column : Nat) :
    selected pp line column = [] ∨ ∃ l, selected pp line column = l ++ [10] := by
  rw [selected]
  rcases List.eq_nil_or_concat (pp.rows.drop (max line 1 - 1)) with h | ⟨rows, row, h⟩
  · rw [h]
    exact Or.inl rfl
  · rw [h, List.concat_eq_append, List.flatMap_append, List.flatMap_singleton, ← List.append_assoc]
    exact Or.inr ⟨_, rfl⟩

/-- How many bytes at the end are not looked at. -/
def hidden (pp : Process) (line : Nat) : Nat :=
  if pp.ncol = 0 then 0 else pp.nlin - (max line 1 - 1)

theorem matchSubject_eq (h : pp.Sized) {line column : Nat} (hl : line ≤ pp.nlin)
    (hc : column ≤ pp.ncol) :
    ∃ subject rest, matchSubject pp (line - 1) (column - 1) = .ok subject ∧
      subject ++ rest = selected pp line column ∧ rest.length = hidden pp line := by
  have hy : line - 1 = max line 1 - 1 := by omega
  have hx : column - 1 = max column 1 - 1 := by omega
  have hrun := matchRows_run h (by omega : max column 1 - 1 ≤ pp.ncol)
    (pp.nlin - (max line 1 - 1)) (max line 1 - 1) [] (by omega)
  have hlen := h.length_selected line column
  rw [matchSubject, hy, hx, hrun, ok_bind, List.nil_append]
  show ∃ subject rest, Except.ok (vreSubject (selected pp line column) _) = Except.ok subject ∧ _
  generalize hn : pp.nlin - (max line 1 - 1) = n at hlen ⊢
  generalize hw : pp.ncol - (max column 1 - 1) = w at hlen ⊢
  rw [vreSubject]
  by_cases hz : n * w = 0
  · have hnul : ∀ b ∈ selected pp line column, b ≠ 0 := by
      rcases Nat.mul_eq_zero.mp hz with h0 | h0
      · rw [h0, Nat.zero_mul] at hlen
        rw [List.eq_nil_of_length_eq_zero hlen]
        exact fun b hb => absurd hb List.not_mem_nil
      · exact selected_of_narrow (by omega)
    refine ⟨_, [], rfl, ?_, ?_⟩
    · rw [if_pos hz, List.append_nil]
      exact cstr_append (a := []) hnul
    · rw [hidden]
      rcases Nat.mul_eq_zero.mp hz with h0 | h0
      · rw [hn, h0, ite_self]
        rfl
      · rw [if_pos (by omega)]
        rfl
  · refine ⟨_, (selected pp line column).drop (n * w), rfl, ?_, ?_⟩
    · rw [if_neg hz, List.take_append_drop]
    · have hw0 : w ≠ 0 := fun h0 => hz (by rw [h0, Nat.mul_zero])
      rw [List.length_drop, hlen, hidden, if_neg (by omega), hn, Nat.mul_succ,
        Nat.add_sub_cancel_left]

end

/-- `term_match_text` looks for every regular expression in `subject`. -/
def Searches (pp : Process) (lin col subject : Bytes) : Prop :=
  ∀ vreCompile re vre, vreCompile re = some vre →
    termMatchText vreCompile pp lin col re = fatalIf (!vre subject)

/-- The subject is the selected area, or all of it but the last newline. -/
def SeesArea (pp : Process) (line column : Nat) (subject : Bytes) : Prop :=
  subject = selected pp line column ∨ subject ++ [10] = selected pp line column

theorem seesArea_iff {pp : Process} {line column : Nat} {subject rest : Bytes}
    (h : subject ++ rest = selected pp line column) :
    SeesArea pp line column subject ↔ rest.length ≤ 1 := by
  rw [SeesArea]
  constructor
  · rintro (hall | hall)
    · have hlen := congrArg List.length (h.trans hall.symm)
      rw [List.length_append] at hlen
      omega
    · cases List.append_cancel_left (h.trans hall.symm)
      exact Nat.le_refl 1
  · intro hle
    rcases rest with _ | ⟨b, _ | ⟨c, rest⟩⟩
    · exact Or.inl ((List.append_nil subject).symm.trans h)
    · -- the one byte that is missing is the newline of the last row
      rcases selected_last pp line column with hnil | ⟨l, hlast⟩
      · exact absurd (h.trans hnil) (List.append_ne_nil_of_right_ne_nil _ (List.cons_ne_nil b []))
      · rw [← (List.append_inj' (h.trans hlast) rfl).2]
        exact Or.inr h
    · simp at hle

theorem hidden_le_one_iff (pp : Process) (line : Nat) :
    hidden pp line ≤ 1 ↔ pp.nlin ≤ max line 1 ∨ pp.ncol = 0 := by
  rw [hidden]
  by_cases h0 : pp.ncol = 0
  · rw [if_pos h0]
    exact iff_of_true (Nat.zero_le 1) (Or.inr h0)
  · rw [if_neg h0, or_iff_left h0]
    omega

/-- **What `match-text` sees**: of every screen and from any place on it, the area without as many
bytes at its end as it has rows. That is the area, or all of it but the last newline, if there is
only one row, and if the rows are empty. -/
theorem match_text_sees_area_iff {pp : Process} (h : pp.Sized) {lin col : Bytes}
    (hl : (strtoul 0 lin).1 ≤ pp.nlin) (hc : (strtoul 0 col).1 ≤ pp.ncol) :
    ∃ subject, Searches pp lin col subject ∧
      (∃ rest, subject ++ rest = selected pp (strtoul 0 lin).1 (strtoul 0 col).1 ∧
        rest.length = hidden pp (strtoul 0 lin).1) ∧
      (SeesArea pp (strtoul 0 lin).1 (strtoul 0 col).1 subject ↔
        pp.nlin ≤ max (strtoul 0 lin).1 1 ∨ pp.ncol = 0) := by
  obtain ⟨subject, rest, hs, hrest, hlen⟩ := matchSubject_eq h hl hc
  refine ⟨subject, ?_, ⟨rest, hrest, hlen⟩, ?_⟩
  · intro vreCompile re vre hvre
    rw [termMatchText]
    simp only [decide_eq_false (Nat.not_lt.mpr hl), decide_eq_false (Nat.not_lt.mpr hc),
      fatalIf_false, ok_bind, hvre, hs]
  · rw [seesArea_iff hrest, hlen, hidden_le_one_iff]

/-- Two lines of three columns. -/
def abcdef : Process where
  vram := some [ascii "abc" ++ [0], ascii "def" ++ [0]]
  nlin := 2
  ncol := 3

theorem abcdef_sized : abcdef.Sized := ⟨rfl, rfl, by decide⟩

/-- From the second line on, all is seen. -/
theorem match_text_sees_area_iff_second_line :
    ∃ subject, Searches abcdef (ascii "2") (ascii "2") subject ∧
      (∃ rest, subject ++ rest = selected abcdef 2 2 ∧ rest.length = hidden abcdef 2) ∧
      (SeesArea abcdef 2 2 subject ↔ abcdef.nlin ≤ max 2 1 ∨ abcdef.ncol = 0) :=
  match_text_sees_area_iff abcdef_sized (by decide) (by decide)

/-- A regular expression of letters, which matches where they stand. -/
def letterRe (re : Bytes) : Option (Bytes → Bool) :=
  some fun subject => subject.tails.any (re.isPrefixOf ·)

/-- `def` is on the screen, and `-match-text 0 0 "def"` fails: the subject ends after `de`. -/
theorem def_is_not_matched :
    selected abcdef 0 0 = ascii "abc\ndef\n" ∧
      matchSubject abcdef 0 0 = .ok (ascii "abc\nde") ∧
      ¬SeesArea abcdef 0 0 (ascii "abc\nde") ∧
      termMatchText letterRe abcdef (ascii "0") (ascii "0") (ascii "def") = .error .fatal := by
  refine ⟨by decide, by decide, ?_, by decide⟩
  rintro (h | h) <;> exact absurd h (by decide)

end Term
end VTest
