import VTest.Script.Parse

/-!
# VTest.Script.Quote

What the loop over a quoted token does. The text behind the opening quote is a sequence of pieces,
each a byte that stands for itself or an escape that `VAV_BackSlash` accepts, up to something that
is neither (`Pieces`).

* `quoteAt_pieces`: the pieces are decoded in place, in front of what is still to be read.
* `quoteAt_closed`, `quoteAt_newline`, `quoteAt_end`, `quoteAt_rejected`, `quoteAt_spins`: what the
  loop does with what follows the pieces.
-/

namespace VTest
namespace Script

/-! ## Pieces -/

/-- An escape that `VAV_BackSlash` accepts. -/
def accepted (s : Bytes) : Option (Nat × UInt8) :=
  if s.length < 2 ∨ (escape s).1 = 0 then none else some (escape s)

/-- The piece at the start of a text: its length, and the byte it stands for. -/
def piece (text : Bytes) : Option (Nat × UInt8) :=
  match text with
  | [] => none
  | b :: _ =>
    if b = 0 ∨ b = 34 ∨ b = 10 then none
    else if b = 92 then accepted (text.takeWhile (· ≠ 0))
    else some (1, b)

/-- A text starts with pieces that stand for `w`, and `r` follows them. -/
inductive Pieces : Bytes → Bytes → Bytes → Prop where
  | nil {t : Bytes} : Pieces t [] t
  | cons {t w r : Bytes} {n : Nat} {c : UInt8} (h : piece t = some (n, c))
      (hr : Pieces (t.drop n) w r) : Pieces t (c :: w) r

theorem piece_plain {b : UInt8} (t : Bytes) (h0 : b ≠ 0) (h34 : b ≠ 34) (h10 : b ≠ 10)
    (h92 : b ≠ 92) : piece (b :: t) = some (1, b) := by
  simp [piece, h0, h34, h10, h92]

theorem piece_escape (t : Bytes) :
    piece (92 :: t) = accepted ((92 :: t).takeWhile (· ≠ 0)) := rfl

theorem octal_le : ∀ (n r : Nat) (c : UInt8) (t : Bytes),
    r ≤ (octal n r c t).1 ∧ (octal n r c t).1 ≤ r + t.length := by
  intro n
  induction n with
  | zero => intro r c t; simp [octal]
  | succ n ih =>
    intro r c t
    cases t with
    | nil => simp [octal]
    | cons b t =>
      rw [octal]
      split
      · have := ih (r + 1) (c <<< 3 ||| (b - 48)) t
        simp only [List.length_cons]
        omega
      · simp

/-- An escape is not longer than the text it is in. -/
theorem escape_le (s : Bytes) : (escape s).1 ≤ s.length := by
  fun_cases escape s with
  | case8 b d t _ _ _ _ _ _ hd =>
    have := (octal_le 3 1 0 (d :: t)).2
    simp only [List.length_cons] at this ⊢
    omega
  | _ => simp

theorem accepted_le {s : Bytes} {n : Nat} {c : UInt8} (h : accepted s = some (n, c)) :
    0 < n ∧ n ≤ s.length := by
  unfold accepted at h
  split at h
  · cases h
  · rename_i hs
    have := escape_le s
    rw [Option.some.inj h] at hs this
    simp only [not_or] at hs
    exact ⟨Nat.pos_of_ne_zero hs.2, this⟩

theorem takeWhile_end (t : Bytes) : (t ++ [0]).takeWhile (· ≠ 0) = t.takeWhile (· ≠ 0) := by
  induction t with
  | nil => rfl
  | cons b t ih => rw [List.cons_append, List.takeWhile_cons, List.takeWhile_cons, ih]

/-- A piece is within the text in front of the NUL. -/
theorem piece_le {t : Bytes} {n : Nat} {c : UInt8} (h : piece (t ++ [0]) = some (n, c)) :
    0 < n ∧ n ≤ t.length := by
  cases t with
  | nil => simp [piece] at h
  | cons b t =>
    rw [List.cons_append, piece] at h
    split at h
    · cases h
    · split at h
      · rw [← List.cons_append, takeWhile_end] at h
        have := (List.takeWhile_sublist (fun x : UInt8 => decide (x ≠ 0)) (l := b :: t)).length_le
        have := accepted_le h
        omega
      · cases h
        simp

/-! ## A turn of the loop -/

theorem getElem?_mid {a r : Bytes} (b : UInt8) : (a ++ b :: r)[a.length]? = some b := by
  simp

/-- A byte is stored at the front of `x`. -/
theorem set_mid {a x : Bytes} (c : UInt8) (hx : x ≠ []) :
    (a ++ x).set a.length c = a ++ [c] ++ x.tail := by
  obtain ⟨b, x, rfl⟩ := List.exists_cons_of_ne_nil hx
  simp

/-- The loop stands at `text`, behind what has been decoded and `junk`. -/
def quoteAt (e fuel : Nat) (a junk text : Bytes) : Res (Bytes × Nat × Nat) :=
  quoteLoop e fuel (a ++ junk ++ text) (a ++ junk).length a.length

theorem vavBackSlash_accepted {a t : Bytes} {n q : Nat} {c : UInt8}
    (h : accepted (t.takeWhile (· ≠ 0)) = some (n, c)) :
    vavBackSlash (a ++ t) a.length q = (n, (a ++ t).set q c) := by
  unfold accepted at h
  split at h
  · cases h
  · rename_i hs
    simp only [not_or, Nat.not_lt] at hs
    simp only [vavBackSlash, cstr_at]
    rw [if_neg (Nat.not_lt.mpr hs.1), Option.some.inj h]

/-- The memory when a byte has been stored and `n` bytes of the text have been read. -/
theorem set_take {a junk t : Bytes} {n : Nat} (c : UInt8) (h : junk ++ t.take n ≠ []) :
    (a ++ junk ++ t).set a.length c = a ++ [c] ++ (junk ++ t.take n).tail ++ t.drop n := by
  have hsplit : junk ++ t = (junk ++ t.take n) ++ t.drop n := by
    rw [List.append_assoc, List.take_append_drop]
  have hne : junk ++ t ≠ [] := by
    rw [hsplit]
    exact List.append_ne_nil_of_left_ne_nil h _
  rw [List.append_assoc, set_mid c hne, hsplit, List.tail_append_of_ne_nil h]
  simp only [List.append_assoc]

/-- A piece is decoded: its byte joins the decoded ones, and the rest of it becomes junk. -/
theorem quoteAt_piece {e fuel : Nat} {a junk t : Bytes} {n : Nat} {c : UInt8}
    (h : piece (t ++ [0]) = some (n, c)) (he : (a ++ junk ++ (t ++ [0])).length = e + 1) :
    quoteAt e (fuel + 1) a junk (t ++ [0]) =
      quoteAt e fuel (a ++ [c]) (junk ++ (t ++ [0]).take n).tail ((t ++ [0]).drop n) := by
  obtain ⟨hn, hle⟩ := piece_le h
  have hne : junk ++ (t ++ [0]).take n ≠ [] := by
    intro h0
    have := congrArg List.length h0
    simp only [List.length_append, List.length_take, List.length_nil, List.length_cons] at this
    omega
  have hset := set_take (a := a) c hne
  have hp : (a ++ junk).length + n = (a ++ [c] ++ (junk ++ (t ++ [0]).take n).tail).length := by
    simp only [List.length_append, List.length_tail, List.length_take, List.length_cons,
      List.length_nil]
    omega
  have hq : a.length + 1 = (a ++ [c]).length := by simp
  cases t with
  | nil => simp at hle; omega
  | cons b t =>
    have hlt : (a ++ junk).length < e := by
      simp only [List.length_append, List.length_cons, List.length_nil] at he ⊢
      omega
    rw [quoteAt, quoteAt, quoteLoop, ← hset, ← hp, ← hq, List.cons_append, getElem?_mid]
    rw [List.cons_append, piece] at h
    split at h
    · cases h
    · rename_i hb
      simp only [not_or] at hb
      obtain ⟨h0, h34, h10⟩ := hb
      split at h
      · rename_i h92
        subst h92
        simp only [if_neg h0, decide_eq_true hlt, check_true, ok_bind, if_neg h34, if_true,
          vavBackSlash_accepted h]
      · rename_i h92
        cases h
        simp only [if_neg h0, decide_eq_true hlt, check_true, ok_bind, if_neg h34, if_neg h92,
          decide_eq_false h10, fatalIf_false]

/-- Pieces are decoded in place. -/
theorem quoteAt_pieces {e : Nat} {text w r : Bytes} (h : Pieces text w r) :
    ∀ (fuel : Nat) (a junk t : Bytes), text = t ++ [0] →
      (a ++ junk ++ text).length = e + 1 →
      ∃ junk' t', r = t' ++ [0] ∧
        quoteAt e (fuel + w.length) a junk text = quoteAt e fuel (a ++ w) junk' r ∧
        (a ++ w ++ junk' ++ r).length = e + 1 := by
  induction h with
  | @nil text =>
    intro fuel a junk t ht he
    exact ⟨junk, t, ht, by simp, by simpa using he⟩
  | @cons text w r n c h hr ih =>
    intro fuel a junk t ht he
    subst ht
    obtain ⟨hn, hle⟩ := piece_le h
    obtain ⟨junk', t', hr', hrun, hlen⟩ :=
      ih fuel (a ++ [c]) (junk ++ (t ++ [0]).take n).tail (t.drop n)
        (by rw [List.drop_append_of_le_length hle])
        (by
          simp only [List.length_append, List.length_tail, List.length_take, List.length_drop,
            List.length_cons, List.length_nil] at he ⊢
          omega)
    refine ⟨junk', t', hr', ?_, ?_⟩
    · rw [List.length_cons, ← Nat.add_assoc, quoteAt_piece h he, hrun, List.append_assoc]
      rfl
    · simpa using hlen

/-! ## The end of the loop -/

theorem quoteAt_closed {e : Nat} {a junk r : Bytes} (fuel : Nat) (h : (a ++ junk).length < e) :
    quoteAt e (fuel + 1) a junk (34 :: r) =
      .ok (a ++ junk ++ 34 :: r, (a ++ junk).length, a.length) := by
  rw [quoteAt, quoteLoop, getElem?_mid, decide_eq_true h]
  rfl

theorem quoteAt_newline {e : Nat} {a junk r : Bytes} (fuel : Nat) (h : (a ++ junk).length < e) :
    quoteAt e (fuel + 1) a junk (10 :: r) = .error .fatal := by
  rw [quoteAt, quoteLoop, getElem?_mid, decide_eq_true h]
  rfl

theorem quoteAt_end {e : Nat} {a junk r : Bytes} (fuel : Nat) :
    quoteAt e (fuel + 1) a junk (0 :: r) =
      .ok (a ++ junk ++ 0 :: r, (a ++ junk).length, a.length) := by
  rw [quoteAt, quoteLoop, getElem?_mid]
  rfl

theorem octal_pos (d : UInt8) (t : Bytes) : (octal 3 1 0 (d :: t)).1 ≠ 0 := by
  have := (octal_le 3 1 0 (d :: t)).1
  omega

/-- An escape that is rejected stands for a NUL. -/
theorem escape_zero {s : Bytes} (h : (escape s).1 = 0) : (escape s).2 = 0 := by
  revert h
  fun_cases escape s with
  | case8 b d t _ _ _ _ _ _ hd => intro h; exact absurd h (octal_pos d t)
  | _ => simp

theorem vavBackSlash_rejected {a t : Bytes} {q : Nat} (h : accepted (t.takeWhile (· ≠ 0)) = none)
    (h2 : 2 ≤ (t.takeWhile (· ≠ 0)).length) :
    vavBackSlash (a ++ t) a.length q = (0, (a ++ t).set q 0) := by
  unfold accepted at h
  split at h
  · rename_i hs
    have h0 : (escape (t.takeWhile (· ≠ 0))).1 = 0 := by
      rcases hs with hs | hs
      · omega
      · exact hs
    simp only [vavBackSlash, cstr_at]
    rw [if_neg (Nat.not_lt.mpr h2), h0, escape_zero h0]
  · cases h

section Rejected

variable {e : Nat} {t : Bytes} (h : accepted ((92 :: t).takeWhile (· ≠ 0)) = none)
  (h2 : 2 ≤ ((92 :: t).takeWhile (· ≠ 0)).length)

include h h2

/-- `p` stays where it is, and a NUL is written. -/
theorem quoteAt_rejected_turn {fuel : Nat} {a junk : Bytes} (hlt : (a ++ junk).length < e) :
    quoteAt e (fuel + 1) a junk (92 :: t) =
      quoteLoop e fuel ((a ++ junk ++ 92 :: t).set a.length 0) (a ++ junk).length
        (a.length + 1) := by
  rw [quoteAt, quoteLoop, getElem?_mid, decide_eq_true hlt, vavBackSlash_rejected h h2]
  rfl

/-- NULs are written up to the backslash. The loop ends at the NUL that has taken the place of the
backslash, and reports no failure. -/
theorem quoteAt_rejected (fuel : Nat) :
    ∀ (junk a : Bytes), (a ++ junk).length < e →
      quoteAt e (fuel + 2 + junk.length) a junk (92 :: t) =
        .ok (a ++ List.replicate junk.length 0 ++ 0 :: t, (a ++ junk).length,
          (a ++ junk).length + 1) := by
  intro junk
  induction junk with
  | nil =>
    intro a hlt
    have hset : (a ++ [] ++ 92 :: t).set a.length 0 = a ++ 0 :: t := by simp
    rw [List.length_nil, Nat.add_zero, quoteAt_rejected_turn h h2 hlt, hset, List.append_nil,
      quoteLoop, getElem?_mid]
    simp
  | cons j junk ih =>
    intro a hlt
    have hset : (a ++ j :: junk ++ 92 :: t).set a.length 0 = a ++ [0] ++ junk ++ 92 :: t := by
      simp
    have hlen : (a ++ j :: junk).length = (a ++ [0] ++ junk).length := by simp
    have hq : a.length + 1 = (a ++ [0]).length := by simp
    rw [List.length_cons, ← Nat.add_assoc, quoteAt_rejected_turn h h2 hlt, hset, hlen, hq]
    refine (ih (a ++ [0]) (by omega)).trans ?_
    simp [List.replicate_succ]

end Rejected

/-- A backslash at the end of the spec: the loop never ends. -/
theorem quoteAt_spins {e : Nat} {a : Bytes} (h : a.length < e) :
    ∀ (fuel q : Nat), quoteLoop e fuel (a ++ [92, 0]) a.length q = .error .fuel := by
  intro fuel
  induction fuel with
  | zero => intro q; rfl
  | succ fuel ih =>
    intro q
    rw [quoteLoop, getElem?_mid, decide_eq_true h]
    have hv : vavBackSlash (a ++ [92, 0]) a.length q = (0, a ++ [92, 0]) := by
      simp only [vavBackSlash, cstr_at]
      rfl
    simp only [hv]
    exact ih (q + 1)

/-- A text whose pieces come to such a backslash: the loop never ends, whatever the fuel is. -/
theorem quoteAt_lone {e : Nat} {text w r : Bytes} (h : Pieces text w r) (hr : r = [92, 0]) :
    ∀ (fuel : Nat) (a junk t : Bytes), text = t ++ [0] → (a ++ junk ++ text).length = e + 1 →
      quoteAt e fuel a junk text = .error .fuel := by
  induction h with
  | nil =>
    intro fuel a junk t _ he
    subst hr
    simp only [List.length_append, List.length_cons, List.length_nil] at he
    exact quoteAt_spins (by rw [List.length_append]; omega) fuel a.length
  | @cons text w r n c h _ ih =>
    intro fuel a junk t ht he
    subst ht
    obtain ⟨hn, hle⟩ := piece_le h
    cases fuel with
    | zero => rfl
    | succ fuel =>
      rw [quoteAt_piece h he]
      refine ih hr fuel _ _ (t.drop n) (List.drop_append_of_le_length hle) ?_
      simp only [List.length_append, List.length_tail, List.length_take, List.length_drop,
        List.length_cons, List.length_nil] at he ⊢
      omega

end Script
end VTest
