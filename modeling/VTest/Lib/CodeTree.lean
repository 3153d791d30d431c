import VTest.Lib.Bytes

/-!
# VTest.Lib.CodeTree

Prefix codes as binary trees: a symbol is a leaf, and its code is the path to it.

A tree has no holes, so a bit string is in one way a sequence of codes and a rest that ends
inside the tree (`split_unique`). `build` makes the tree of a list of codes; that it returns one
says that the list is a complete prefix code, and `codes_of_build` that the tree has its codes.
-/

namespace VTest

inductive CodeTree (α : Type) where
  | leaf (a : α)
  | node (zero one : CodeTree α)

namespace CodeTree

variable {α : Type}

/-- Down the tree until a leaf or the end of the bits: where that is, and the bits that are left. -/
def walk : CodeTree α → List Bool → CodeTree α × List Bool
  | leaf a, bits => (leaf a, bits)
  | node l r, [] => (node l r, [])
  | node _ r, true :: bits => walk r bits
  | node l _, false :: bits => walk l bits

def isNode : CodeTree α → Bool
  | leaf _ => false
  | node _ _ => true

def codes : CodeTree α → List (α × List Bool)
  | leaf a => [(a, [])]
  | node l r => l.codes.map (fun p => (p.1, false :: p.2)) ++
      r.codes.map (fun p => (p.1, true :: p.2))

theorem walk_append (t : CodeTree α) (c d : List Bool) :
    t.walk (c ++ d) = (t.walk c).1.walk ((t.walk c).2 ++ d) := by
  induction t generalizing c with
  | leaf a => rfl
  | node l r ihl ihr =>
    cases c with
    | nil => rfl
    | cons b c =>
      cases b with
      | false => exact ihl c
      | true => exact ihr c

/-- The walk along a code ends at its symbol, whatever is behind it. -/
theorem walk_code {t : CodeTree α} {a : α} {c : List Bool} (h : (a, c) ∈ t.codes)
    (rest : List Bool) : t.walk (c ++ rest) = (leaf a, rest) := by
  induction t generalizing c with
  | leaf b =>
    cases List.mem_singleton.mp h
    rfl
  | node l r ihl ihr =>
    rcases List.mem_append.mp h with h | h
    · obtain ⟨p, hp, he⟩ := List.mem_map.mp h
      cases he
      exact ihl hp
    · obtain ⟨p, hp, he⟩ := List.mem_map.mp h
      cases he
      exact ihr hp

theorem mem_codes_of_walk {t : CodeTree α} {a : α} {c : List Bool} (h : t.walk c = (leaf a, [])) :
    (a, c) ∈ t.codes := by
  induction t generalizing c with
  | leaf b =>
    cases h
    exact List.mem_singleton.mpr rfl
  | node l r ihl ihr =>
    cases c with
    | nil => cases h
    | cons b c =>
      cases b with
      | false => exact List.mem_append_left _ (List.mem_map.mpr ⟨_, ihl h, rfl⟩)
      | true => exact List.mem_append_right _ (List.mem_map.mpr ⟨_, ihr h, rfl⟩)

/-- The bits `r` end before a symbol is complete. -/
def Inside (t : CodeTree α) (r : List Bool) : Prop := (t.walk r).1.isNode = true

theorem walk_snd_of_inside {t : CodeTree α} {r : List Bool} (h : t.Inside r) :
    (t.walk r).2 = [] := by
  induction t generalizing r with
  | leaf a => cases h
  | node l m ihl ihm =>
    cases r with
    | nil => rfl
    | cons b r =>
      cases b with
      | false => exact ihl h
      | true => exact ihm h

/-- Whatever is short of a place that the walk reaches with its last bit is inside the tree. -/
theorem inside_of_walk {t x : CodeTree α} {c d : List Bool} (h : t.walk (c ++ d) = (x, []))
    (hd : d ≠ []) : t.Inside c := by
  rw [walk_append] at h
  rw [Inside]
  cases hw : (t.walk c).1 with
  | node l r => rfl
  | leaf a =>
    rw [hw] at h
    exact absurd (List.append_eq_nil_iff.mp (congrArg Prod.snd h)).2 hd

/-- A bit string is in one way a sequence of codes and a rest inside the tree. -/
theorem split_unique {t : CodeTree α} {code : α → List Bool} (hc : ∀ a, (a, code a) ∈ t.codes)
    {s s' : List α} {r r' : List Bool} (h : s.flatMap code ++ r = s'.flatMap code ++ r')
    (hr : t.Inside r) (hr' : t.Inside r') : s = s' ∧ r = r' := by
  have leaf_first {a : α} {s : List α} {r : List Bool} :
      t.walk ((a :: s).flatMap code ++ r) = (leaf a, s.flatMap code ++ r) := by
    rw [List.flatMap_cons, List.append_assoc, walk_code (hc a)]
  induction s generalizing s' with
  | nil =>
    cases s' with
    | nil => exact ⟨rfl, h⟩
    | cons a s' =>
      rw [List.flatMap_nil, List.nil_append] at h
      rw [Inside, h, leaf_first] at hr
      cases hr
  | cons a s ih =>
    cases s' with
    | nil =>
      rw [List.flatMap_nil, List.nil_append] at h
      rw [Inside, ← h, leaf_first] at hr'
      cases hr'
    | cons a' s' =>
      have hw := congrArg t.walk h
      rw [leaf_first, leaf_first] at hw
      obtain ⟨rfl, rfl⟩ := ih (congrArg Prod.snd hw)
      cases hw
      exact ⟨rfl, rfl⟩

/-- The codes that go on with the bit `b`, without it. -/
def branch (b : Bool) (cs : List (α × List Bool)) : List (α × List Bool) :=
  cs.filterMap fun p =>
    match p.2 with
    | [] => none
    | x :: c => if x = b then some (p.1, c) else none

/-- The tree of the codes, none of which is longer than the first argument. -/
def build : Nat → List (α × List Bool) → Option (CodeTree α)
  | 0, _ => none
  | n + 1, cs =>
    if cs.any fun p => p.2.isEmpty then
      match cs with
      | [p] => some (leaf p.1)
      | _ => none
    else
      (build n (branch false cs)).bind fun l => (build n (branch true cs)).map fun r => node l r

theorem mem_branch {b : Bool} {cs : List (α × List Bool)} {a : α} {c : List Bool}
    (h : (a, b :: c) ∈ cs) : (a, c) ∈ branch b cs :=
  List.mem_filterMap.mpr ⟨_, h, by simp⟩

theorem codes_of_build {n : Nat} : ∀ {cs : List (α × List Bool)} {t : CodeTree α},
    build n cs = some t → ∀ p ∈ cs, p ∈ t.codes := by
  induction n with
  | zero => intro cs t h; cases h
  | succ n ih =>
    intro cs t h p hp
    unfold build at h
    by_cases hany : cs.any fun p => p.2.isEmpty
    · rw [if_pos hany] at h
      split at h
      · cases h
        cases List.mem_singleton.mp hp
        have hnil : p.2 = [] := by simpa using hany
        exact List.mem_singleton.mpr (by rw [← hnil])
      · cases h
    · rw [if_neg hany] at h
      obtain ⟨l, hl, h⟩ := Option.bind_eq_some_iff.mp h
      obtain ⟨r, hr, rfl⟩ := Option.map_eq_some_iff.mp h
      obtain ⟨a, c⟩ := p
      cases c with
      | nil => exact absurd (List.any_eq_true.mpr ⟨_, hp, rfl⟩) hany
      | cons b c =>
        cases b with
        | false =>
          exact List.mem_append_left _ (List.mem_map.mpr ⟨_, ih hl _ (mem_branch hp), rfl⟩)
        | true =>
          exact List.mem_append_right _ (List.mem_map.mpr ⟨_, ih hr _ (mem_branch hp), rfl⟩)

theorem mem_of_build {n : Nat} : ∀ {cs : List (α × List Bool)} {t : CodeTree α},
    build n cs = some t → ∀ p ∈ t.codes, p ∈ cs := by
  have of_branch {b : Bool} {cs : List (α × List Bool)} {p : α × List Bool}
      (h : p ∈ branch b cs) : (p.1, b :: p.2) ∈ cs := by
    obtain ⟨⟨a, c⟩, hq, he⟩ := List.mem_filterMap.mp h
    cases c with
    | nil => cases he
    | cons x c =>
      simp only [Option.ite_none_right_eq_some, Option.some.injEq] at he
      obtain ⟨rfl, rfl⟩ := he
      exact hq
  induction n with
  | zero => intro cs t h; cases h
  | succ n ih =>
    intro cs t h p hp
    unfold build at h
    by_cases hany : cs.any fun p => p.2.isEmpty
    · rw [if_pos hany] at h
      split at h
      · cases h
        cases List.mem_singleton.mp hp
        rename_i q
        have hnil : q.2 = [] := by simpa using hany
        exact List.mem_singleton.mpr (by rw [← hnil])
      · cases h
    · rw [if_neg hany] at h
      obtain ⟨l, hl, h⟩ := Option.bind_eq_some_iff.mp h
      obtain ⟨r, hr, rfl⟩ := Option.map_eq_some_iff.mp h
      rcases List.mem_append.mp hp with hp | hp
      · obtain ⟨q, hq, rfl⟩ := List.mem_map.mp hp
        exact of_branch (ih hl q hq)
      · obtain ⟨q, hq, rfl⟩ := List.mem_map.mp hp
        exact of_branch (ih hr q hq)

theorem codes_ne_nil (t : CodeTree α) : t.codes ≠ [] := by
  induction t with
  | leaf a => simp [codes]
  | node l r ihl _ => simp [codes, ihl]

/-- Bits inside the tree are the beginning of a code. -/
theorem Inside.extends {t : CodeTree α} {r : List Bool} (h : t.Inside r) :
    ∃ a d, d ≠ [] ∧ (a, r ++ d) ∈ t.codes := by
  have hw : t.walk r = ((t.walk r).1, []) := by rw [← walk_snd_of_inside h]
  cases hn : (t.walk r).1 with
  | leaf a =>
    rw [Inside, hn] at h
    cases h
  | node l m =>
    obtain ⟨⟨a, d⟩, hd⟩ := List.exists_mem_of_ne_nil _ (codes_ne_nil (node l m))
    refine ⟨a, d, ?_, mem_codes_of_walk ?_⟩
    · rintro rfl
      have := walk_code hd []
      cases this
    · have hwd := walk_code hd []
      rw [List.append_nil] at hwd
      rw [walk_append, walk_snd_of_inside h, hn]
      exact hwd

end CodeTree
end VTest
