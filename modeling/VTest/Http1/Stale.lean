import VTest.Http1.Chunk

/-!
# VTest.Http1.Stale

What a received header has to do with the old content of the receive buffer.

`http_rxhdr` leaves the message, a NUL and then what earlier messages have left behind.
`http_splitheader` looks for the NUL when it cuts the header lines, but not when it cuts the first
line.

* `InFirstLine`: the first line can be cut without going past the message.
* `httpSplitheader_in`: in that case, what is behind the NUL does not matter.
* `header_stale_free_iff`: and only in that case, up to the number of header lines.
-/

namespace VTest
namespace Http1

/-! ## Scanning up to a NUL -/

theorem skipWhile_off {f : UInt8 → Bool} {x : Bytes} (h : ∀ b ∈ x, f b = true) (d : Bytes) :
    skipWhile f d x = .error .ub := by
  induction x generalizing d with
  | nil => rfl
  | cons b x ih =>
    rw [skipWhile, if_pos (h b List.mem_cons_self)]
    exact ih (fun c hc => h c (List.mem_cons_of_mem b hc)) _

theorem dropWhile_head {f : UInt8 → Bool} {y t : Bytes} {c : UInt8}
    (h : y.dropWhile f = c :: t) : f c = false := by
  have := List.head_dropWhile_not f (w := by rw [h]; exact List.cons_ne_nil _ _)
  simpa [h] using this

/-- A scan that stops within `y`. -/
theorem skipWhile_in {f : UInt8 → Bool} {y : Bytes} (h : y.dropWhile f ≠ []) (d r : Bytes) :
    skipWhile f d (y ++ r) = .ok ⟨d ++ y.takeWhile f, y.dropWhile f ++ r⟩ := by
  obtain ⟨c, t, ht⟩ := List.exists_cons_of_ne_nil h
  have hy : y ++ r = y.takeWhile f ++ c :: (t ++ r) := by
    rw [← List.cons_append, ← ht, ← List.append_assoc, List.takeWhile_append_dropWhile]
  rw [hy, skipWhile_spec (fun b hb => List.mem_takeWhile_imp hb) (dropWhile_head ht), ht]
  rfl

/-- A scan that stops at a NUL at the latest. -/
theorem skipWhile_stop {f : UInt8 → Bool} (hf : f 0 = false) (y d r : Bytes) :
    skipWhile f d (y ++ 0 :: r) = .ok ⟨d ++ y.takeWhile f, y.dropWhile f ++ 0 :: r⟩ := by
  by_cases h : y.dropWhile f = []
  · have hy : y.takeWhile f = y := by
      have := @List.takeWhile_append_dropWhile _ f y
      rwa [h, List.append_nil] at this
    rw [skipWhile_spec (fun b hb => by rw [← hy] at hb; exact List.mem_takeWhile_imp hb) hf, h, hy]
    rfl
  · exact skipWhile_in h d _

/-- A scan that does not stop within the message goes on behind the NUL. -/
theorem skipWhile_past {f : UInt8 → Bool} {y r : Bytes} (h : y.dropWhile f = [])
    (hr : ∀ b ∈ 0 :: r, f b = true) (d : Bytes) : skipWhile f d (y ++ 0 :: r) = .error .ub := by
  refine skipWhile_off (fun b hb => ?_) d
  rcases List.mem_append.mp hb with hb | hb
  · exact List.dropWhile_eq_nil_iff.mp h b hb
  · exact hr b hb

theorem iscrlf_nul (y r : Bytes) : iscrlf (y ++ 0 :: r) = iscrlf y := by
  rcases y with _ | ⟨a, _ | ⟨b, y⟩⟩
  · rfl
  · by_cases ha : a = 10
    · rw [ha]
      rfl
    · simp [iscrlf, ha]
  · exact (iscrlf_pair a b (y ++ 0 :: r)).trans (iscrlf_pair a b y).symm

theorem iscrlf_ne_zero {y : Bytes} (h : iscrlf y ≠ 0) :
    (∃ t, y = 10 :: t) ∨ ∃ t, y = 13 :: 10 :: t := by
  unfold iscrlf at h
  split at h
  · exact .inr ⟨_, rfl⟩
  · exact .inl ⟨_, rfl⟩
  · exact absurd rfl h

/-- Where the line ends, or where the scan for its end stops at a NUL. -/
theorem skipLine_nul (y : Bytes) : ∃ p q, y = p ++ q ∧
    (q.head? = none ∨ q.head? = some 0 ∨ iscrlf q ≠ 0) ∧
    ∀ d r, skipLine true d (y ++ 0 :: r) = .ok ⟨d ++ p, q ++ 0 :: r⟩ := by
  induction y with
  | nil =>
    refine ⟨[], [], rfl, .inl rfl, fun d r => ?_⟩
    rw [List.nil_append, skipLine, if_pos (by decide), List.append_nil]
  | cons b y ih =>
    by_cases hb : b = 0
    · subst hb
      refine ⟨[], 0 :: y, rfl, .inr (.inl rfl), fun d r => ?_⟩
      rw [List.cons_append, skipLine, if_pos (by decide), List.append_nil]
    · by_cases hc : iscrlf (b :: y) = 0
      · obtain ⟨p, q, rfl, hq, hrun⟩ := ih
        refine ⟨b :: p, q, rfl, hq, fun d r => ?_⟩
        have hc' : iscrlf (b :: (p ++ q ++ 0 :: r)) = 0 := (iscrlf_nul (b :: (p ++ q)) r).trans hc
        rw [List.cons_append, skipLine, if_neg (by simp [hb]), if_neg (by rw [hc']; decide), hrun,
          List.append_assoc]
        rfl
      · refine ⟨[], b :: y, rfl, .inr (.inr hc), fun d r => ?_⟩
        have hc' : iscrlf (b :: (y ++ 0 :: r)) ≠ 0 := by
          rw [← List.cons_append, iscrlf_nul]
          exact hc
        rw [List.cons_append, skipLine, if_neg (by simp [hb]), if_pos hc', List.append_nil]

/-- Where the first line ends, if it does. -/
theorem skipLine_lf {y : Bytes} (h : 10 ∈ y) : ∃ p q, y = p ++ q ∧ iscrlf q ≠ 0 ∧
    ∀ d r, skipLine false d (y ++ 0 :: r) = .ok ⟨d ++ p, q ++ 0 :: r⟩ := by
  induction y with
  | nil => cases h
  | cons b y ih =>
    by_cases hc : iscrlf (b :: y) = 0
    · have hb : b ≠ 10 := by
        rintro rfl
        exact absurd hc (by simp [iscrlf])
      have hmem : 10 ∈ y := (List.mem_cons.mp h).resolve_left (Ne.symm hb)
      obtain ⟨p, q, rfl, hq, hrun⟩ := ih hmem
      refine ⟨b :: p, q, rfl, hq, fun d r => ?_⟩
      have hc' : iscrlf (b :: (p ++ q ++ 0 :: r)) = 0 := (iscrlf_nul (b :: (p ++ q)) r).trans hc
      rw [List.cons_append, skipLine, if_neg (by simp), if_neg (by rw [hc']; decide), hrun,
        List.append_assoc]
      rfl
    · refine ⟨[], b :: y, rfl, hc, fun d r => ?_⟩
      have hc' : iscrlf (b :: (y ++ 0 :: r)) ≠ 0 := by
        rw [← List.cons_append, iscrlf_nul]
        exact hc
      rw [List.cons_append, skipLine, if_neg (by simp), if_pos hc', List.append_nil]

/-- Without a line end, the scan goes on. -/
theorem skipLine_past {y : Bytes} (h : 10 ∉ y) (d t : Bytes) :
    skipLine false d (y ++ 0 :: t) = skipLine false (d ++ y ++ [0]) t := by
  induction y generalizing d with
  | nil =>
    rw [List.nil_append, skipLine, if_neg (by simp), if_neg (by simp [iscrlf]), List.append_nil]
  | cons b y ih =>
    have hb : b ≠ 10 := fun e => h (e ▸ List.mem_cons_self)
    have hy : 10 ∉ y := fun e => h (List.mem_cons_of_mem b e)
    have hc : iscrlf (b :: (y ++ 0 :: t)) = 0 := by
      by_contra hc
      rcases iscrlf_ne_zero hc with ⟨u, hu⟩ | ⟨u, hu⟩
      · exact hb (List.cons.inj hu).1
      · cases y with
        | nil => cases (List.cons.inj (List.cons.inj hu).2).1
        | cons c y =>
          exact hy ((List.cons.inj (List.cons.inj hu).2).1 ▸ List.mem_cons_self)
    rw [List.cons_append, skipLine, if_neg (by simp), if_neg (by rw [hc]; decide), ih hy]
    simp

theorem skipLine_off {t : Bytes} (h : 10 ∉ t) (d : Bytes) :
    skipLine false d t = .error .assert := by
  induction t generalizing d with
  | nil => rfl
  | cons b t ih =>
    have ht : 10 ∉ t := fun e => h (List.mem_cons_of_mem b e)
    have hc : iscrlf (b :: t) = 0 := by
      by_contra hc
      rcases iscrlf_ne_zero hc with ⟨u, hu⟩ | ⟨u, hu⟩
      · exact h ((List.cons.inj hu).1 ▸ List.mem_cons_self)
      · exact ht ((List.cons.inj hu).2 ▸ List.mem_cons_self)
    rw [skipLine, if_neg (by simp), if_neg (by rw [hc]; decide)]
    exact ih ht _

/-! ## Cutting -/

/-- Some bytes have been overwritten with NUL. -/
def Cut (m m' : Bytes) : Prop := List.Forall₂ (fun b c => c = b ∨ c = 0) m m'

theorem Cut.refl (m : Bytes) : Cut m m := by
  induction m with
  | nil => exact .nil
  | cons b m ih => exact .cons (.inl rfl) ih

theorem Cut.append {a a' b b' : Bytes} (h : Cut a a') (h' : Cut b b') : Cut (a ++ b) (a' ++ b') :=
  List.rel_append h h'

theorem Cut.trans {a b c : Bytes} (h : Cut a b) (h' : Cut b c) : Cut a c := by
  induction h generalizing c with
  | nil => exact h'
  | cons hb _ ih =>
    cases h' with
    | cons hc ht =>
      refine .cons ?_ (ih ht)
      rcases hc with rfl | rfl
      · exact hb
      · exact .inr rfl

theorem cut_nul (b : UInt8) (t : Bytes) : Cut (b :: t) (0 :: t) := .cons (.inr rfl) (Cut.refl t)

/-- A line end is cut, and the cursor moves behind it. -/
theorem cutLine_crlf {y : Bytes} (h : iscrlf y ≠ 0) : ∃ e t, t.length < y.length ∧ Cut y (e ++ t) ∧
    ∀ d r, Cur.cutLine ⟨d, y ++ 0 :: r⟩ = .ok ⟨d ++ e, t ++ 0 :: r⟩ := by
  rcases iscrlf_ne_zero h with ⟨t, rfl⟩ | ⟨t, rfl⟩
  · exact ⟨[0], t, by simp, cut_nul 10 t, fun d r => rfl⟩
  · exact ⟨[0, 10], t, by simp, cut_nul 13 (10 :: t), fun d r => rfl⟩

/-! ## The first line -/

/-- What is behind the second word of the first line. -/
def splitThird (p0 p1 : Option Nat) (c : Cur) : Res (Cur × List (Option Nat)) := do
  let c2 ← skipWhile issp c.done c.rest
  let c ← skipLine false c2.done c2.rest
  let c ← c.cutLine
  return (c, [p0, p1, c2.at])

/-- What is behind the first word of the first line. -/
def splitSecond (p0 : Option Nat) (c : Cur) : Res (Cur × List (Option Nat)) := do
  let c1 ← skipWhile issp c.done c.rest
  check (iscrlf c1.rest = 0)
  let c ← skipWhile (!islws ·) c1.done c1.rest
  if iscrlf c.rest ≠ 0 then do
    let c ← c.cutLine
    return (c, [p0, c1.at, none])
  else do
    let c ← c.cut
    splitThird p0 c1.at c

theorem splitFirst_eq (mem : Bytes) : splitFirst mem = (do
    let c0 ← skipWhile islws [] mem
    let c ← skipWhile (!islws ·) c0.done c0.rest
    check (iscrlf c.rest = 0)
    let c ← c.cut
    splitSecond c0.at c) :=
  rfl

/-- The scan for the second word stops within the message, and so does the one for the end of the
line. -/
def InSecond (t : Bytes) : Prop :=
  let x2 := t.dropWhile issp
  let x3 := x2.dropWhile (!islws ·)
  iscrlf x2 ≠ 0 ∨ x3 ≠ [] ∧ (iscrlf x3 ≠ 0 ∨ 10 ∈ x3.tail)

/-- The scans of the first line stop within the message: there is a blank or a line end behind the
first word, and, unless a line end is where it must not be, behind the second one, and the line
ends. -/
def InFirstLine (m : Bytes) : Prop :=
  let x1 := (m.dropWhile islws).dropWhile (!islws ·)
  x1 ≠ [] ∧ (iscrlf x1 ≠ 0 ∨ InSecond x1.tail)

/-- Pointers that are `d` and then so many bytes into the buffer. -/
def ptrs (d : Bytes) (offs : List (Option Nat)) : List (Option Nat) :=
  offs.map (Option.map (d.length + ·))

/-- From any place `d` on, the cutting of the first line gets through `y` to `t`, with pointers into
`y`, whatever is behind the NUL. -/
def Through (p0 : Option Nat) (y : Bytes) : Prop :=
  ∃ e t offs, Cut y (e ++ t) ∧ (∀ k, some k ∈ offs → k ≤ y.length) ∧ offs.length = 2 ∧
    ∀ d r, splitSecond p0 ⟨d, y ++ 0 :: r⟩ = .ok (⟨d ++ e, t ++ 0 :: r⟩, p0 :: ptrs d offs)

theorem splitThird_in {y : Bytes} (h : 10 ∈ y) :
    ∃ e t k, Cut y (e ++ t) ∧ k ≤ y.length ∧ ∀ p0 p1 d r,
      splitThird p0 p1 ⟨d, y ++ 0 :: r⟩ =
        .ok (⟨d ++ e, t ++ 0 :: r⟩, [p0, p1, some (d.length + k)]) := by
  have hmem : 10 ∈ y.dropWhile issp := by
    rw [← @List.takeWhile_append_dropWhile _ issp y] at h
    refine (List.mem_append.mp h).resolve_left fun hw => ?_
    exact absurd (List.mem_takeWhile_imp hw) (by decide)
  obtain ⟨p, q, hpq, hq, hline⟩ := skipLine_lf hmem
  obtain ⟨e, t, -, hcut, hcutLine⟩ := cutLine_crlf hq
  have hy : y = y.takeWhile issp ++ (p ++ q) := by
    rw [← hpq, List.takeWhile_append_dropWhile]
  refine ⟨y.takeWhile issp ++ p ++ e, t, (y.takeWhile issp).length, ?_,
    (List.takeWhile_prefix issp).length_le, fun p0 p1 d r => ?_⟩
  · have := (Cut.refl (y.takeWhile issp ++ p)).append hcut
    rw [List.append_assoc _ p q, ← hy] at this
    simpa only [List.append_assoc] using this
  · rw [splitThird, skipWhile_stop (by decide), ok_bind]
    simp only [hline, ok_bind, hcutLine]
    simp [Cur.at]

theorem splitSecond_in {y : Bytes} (h : InSecond y) (p0 : Option Nat) :
    (∀ d r, splitSecond p0 ⟨d, y ++ 0 :: r⟩ = .error .assert) ∨ Through p0 y := by
  have hstop : ∀ d r, skipWhile issp d (y ++ 0 :: r) =
      .ok ⟨d ++ y.takeWhile issp, y.dropWhile issp ++ 0 :: r⟩ := skipWhile_stop (by decide) y
  rcases h with hc2 | ⟨hx3, hcase⟩
  · -- a line end in place of the second word
    refine .inl fun d r => ?_
    rw [splitSecond, hstop, ok_bind]
    simp only [iscrlf_nul, decide_eq_false hc2, check_false, error_bind]
  by_cases hc2 : iscrlf (y.dropWhile issp) = 0
  swap
  · refine .inl fun d r => ?_
    rw [splitSecond, hstop, ok_bind]
    simp only [iscrlf_nul, decide_eq_false hc2, check_false, error_bind]
  have hword : ∀ d r, skipWhile (!islws ·) d (y.dropWhile issp ++ 0 :: r) =
      .ok ⟨d ++ (y.dropWhile issp).takeWhile (!islws ·),
        (y.dropWhile issp).dropWhile (!islws ·) ++ 0 :: r⟩ := fun d r => skipWhile_in hx3 d _
  have hy : y = y.takeWhile issp ++ ((y.dropWhile issp).takeWhile (!islws ·) ++
      (y.dropWhile issp).dropWhile (!islws ·)) := by
    rw [List.takeWhile_append_dropWhile, List.takeWhile_append_dropWhile]
  have hle : (y.takeWhile issp).length ≤ y.length := (List.takeWhile_prefix issp).length_le
  generalize y.takeWhile issp = w2 at *
  generalize (y.dropWhile issp).takeWhile (!islws ·) = w3 at *
  generalize (y.dropWhile issp).dropWhile (!islws ·) = x3 at *
  refine .inr ?_
  by_cases hc3 : iscrlf x3 = 0
  · -- there is a third part
    obtain ⟨c, v, rfl⟩ := List.exists_cons_of_ne_nil hx3
    obtain ⟨e, t, k, hcut, hk, hrun⟩ := splitThird_in (hcase.resolve_left fun h => h hc3)
    have hlen := congrArg List.length hy
    simp only [List.length_append, List.length_cons, List.tail_cons] at hlen hk hcut hrun
    refine ⟨w2 ++ w3 ++ [0] ++ e, t, [some w2.length, some (w2.length + w3.length + 1 + k)], ?_, ?_,
      rfl, fun d r => ?_⟩
    · have := (Cut.refl (w2 ++ w3)).append ((cut_nul c v).trans (.cons (.inl rfl) hcut))
      rw [List.append_assoc w2 w3 (c :: v), ← hy] at this
      simpa only [List.append_assoc, List.cons_append, List.nil_append] using this
    · intro n hn
      rcases List.mem_pair.mp hn with hn | hn <;> cases hn
      · exact hle
      · omega
    · rw [splitSecond, hstop, ok_bind]
      simp only [iscrlf_nul, hc2, decide_true, check_true, ok_bind, hword, ne_eq, hc3,
        not_true_eq_false, if_false]
      rw [List.cons_append, Cur.cut]
      show splitThird _ _ _ = _
      rw [hrun]
      simp [ptrs, Cur.at, Nat.add_assoc]
  · obtain ⟨e, t, -, hcut, hcutLine⟩ := cutLine_crlf hc3
    refine ⟨w2 ++ w3 ++ e, t, [some w2.length, none], ?_, ?_, rfl, fun d r => ?_⟩
    · have := (Cut.refl (w2 ++ w3)).append hcut
      rw [List.append_assoc w2 w3 x3, ← hy] at this
      simpa only [List.append_assoc] using this
    · intro k hk
      rcases List.mem_pair.mp hk with hk | hk
      · cases hk
        exact hle
      · cases hk
    · rw [splitSecond, hstop, ok_bind]
      simp only [iscrlf_nul, hc2, decide_true, check_true, ok_bind, hword, ne_eq, hc3,
        not_false_eq_true, if_true, hcutLine]
      simp [ptrs, Cur.at]

theorem splitFirst_in {m : Bytes} (h : InFirstLine m) :
    (∀ r, splitFirst (m ++ 0 :: r) = .error .assert) ∨
      ∃ d y hh, Cut m (d ++ y) ∧ (∀ p, some p ∈ hh → p ≤ m.length) ∧ hh.length = 3 ∧
        ∀ r, splitFirst (m ++ 0 :: r) = .ok (⟨d, y ++ 0 :: r⟩, hh) := by
  obtain ⟨hx1, hcase⟩ := h
  have hstop : ∀ r, skipWhile islws [] (m ++ 0 :: r) =
      .ok ⟨m.takeWhile islws, m.dropWhile islws ++ 0 :: r⟩ := skipWhile_stop (by decide) m []
  have hword : ∀ d r, skipWhile (!islws ·) d (m.dropWhile islws ++ 0 :: r) =
      .ok ⟨d ++ (m.dropWhile islws).takeWhile (!islws ·),
        (m.dropWhile islws).dropWhile (!islws ·) ++ 0 :: r⟩ := fun d r => skipWhile_in hx1 d _
  have hm : m = m.takeWhile islws ++ ((m.dropWhile islws).takeWhile (!islws ·) ++
      (m.dropWhile islws).dropWhile (!islws ·)) := by
    rw [List.takeWhile_append_dropWhile, List.takeWhile_append_dropWhile]
  generalize m.takeWhile islws = w0 at *
  generalize (m.dropWhile islws).takeWhile (!islws ·) = w1 at *
  generalize (m.dropWhile islws).dropWhile (!islws ·) = x1 at *
  obtain ⟨b, t, rfl⟩ := List.exists_cons_of_ne_nil hx1
  by_cases hc1 : iscrlf (b :: t) = 0
  swap
  · refine .inl fun r => ?_
    rw [splitFirst_eq, hstop, ok_bind]
    simp only [hword, ok_bind, iscrlf_nul, decide_eq_false hc1, check_false, error_bind]
  -- both outcomes are those of the second word
  have hrun : ∀ r, splitFirst (m ++ 0 :: r) =
      splitSecond (some w0.length) ⟨w0 ++ w1 ++ [0], t ++ 0 :: r⟩ := by
    intro r
    rw [splitFirst_eq, hstop, ok_bind]
    simp only [hword, ok_bind, iscrlf_nul, hc1, decide_true, check_true]
    rfl
  have hlen := congrArg List.length hm
  simp only [List.length_append, List.length_cons] at hlen
  rcases splitSecond_in (hcase.resolve_left fun h => h hc1) (some w0.length) with
    hbad | ⟨e, u, offs, hcut, hoffs, h2, hgood⟩
  · exact .inl fun r => (hrun r).trans (hbad _ r)
  · refine .inr ⟨w0 ++ w1 ++ [0] ++ e, u, some w0.length :: ptrs (w0 ++ w1 ++ [0]) offs, ?_, ?_, ?_,
      fun r => (hrun r).trans (hgood _ r)⟩
    · have := (Cut.refl (w0 ++ w1)).append ((cut_nul b t).trans (.cons (.inl rfl) hcut))
      rw [List.append_assoc w0 w1 (b :: t), ← hm] at this
      simpa only [List.append_assoc, List.cons_append, List.nil_append] using this
    · intro p hp
      rcases List.mem_cons.mp hp with hp | hp
      · cases hp
        omega
      · obtain ⟨o, ho, hop⟩ := List.mem_map.mp hp
        obtain ⟨k, rfl, rfl⟩ := Option.map_eq_some_iff.mp hop
        have hk : k ≤ t.length := hoffs k ho
        simp only [List.length_append, List.length_cons, List.length_nil]
        omega
    · rw [List.length_cons, ptrs, List.length_map, h2]

/-! ## The header lines -/

theorem head_nul (y r : Bytes) : (y ++ 0 :: r).head? = (y ++ [0]).head? := by
  cases y <;> rfl

/-- A turn at a line that is not empty: its end is looked for, and cut. -/
theorem splitLines_line {b : UInt8} {p q d : Bytes} {hh : List (Option Nat)} (hb : b ≠ 0)
    (hmax : hh.length < maxHdr) (hc : iscrlf (b :: (p ++ q)) = 0)
    (hline : ∀ d r, skipLine true d (p ++ q ++ 0 :: r) = .ok ⟨d ++ p, q ++ 0 :: r⟩)
    (fuel : Nat) (r : Bytes) : splitLines (fuel + 1) ⟨d, b :: (p ++ q) ++ 0 :: r⟩ hh =
      if (q ++ [0]).head? = some 0 then .ok (⟨d ++ (b :: p), q ++ 0 :: r⟩, hh ++ [some d.length])
      else Cur.cutLine ⟨d ++ (b :: p), q ++ 0 :: r⟩ >>= fun c =>
        splitLines fuel c (hh ++ [some d.length]) := by
  have hc' : iscrlf (b :: (p ++ q ++ 0 :: r)) = 0 := (iscrlf_nul (b :: (p ++ q)) r).trans hc
  have hd : d ++ [b] ++ p = d ++ (b :: p) := List.append_assoc d [b] p
  rw [List.cons_append, splitLines]
  simp only [if_neg hb, decide_eq_true hmax, check_true, ok_bind, hc', ne_eq,
    not_true_eq_false, if_false, hline, hd, head_nul]
  rfl

/-- A turn: an assertion fails, the loop ends, or a line was cut off and the loop goes on. -/
theorem splitLines_turn (b : UInt8) (y d : Bytes) (hh : List (Option Nat)) :
    (∀ fuel r, splitLines (fuel + 1) ⟨d, b :: y ++ 0 :: r⟩ hh = .error .assert) ∨
      (∃ e t hs, Cut (b :: y) (e ++ t) ∧ (∀ k, some k ∈ hs → k ≤ d.length) ∧
        ∀ fuel r, splitLines (fuel + 1) ⟨d, b :: y ++ 0 :: r⟩ hh =
          .ok (⟨d ++ e, t ++ 0 :: r⟩, hh ++ hs)) ∨
      ∃ e t, t.length ≤ y.length ∧ Cut (b :: y) (e ++ t) ∧
        ∀ fuel r, splitLines (fuel + 1) ⟨d, b :: y ++ 0 :: r⟩ hh =
          splitLines fuel ⟨d ++ e, t ++ 0 :: r⟩ (hh ++ [some d.length]) := by
  by_cases hb : b = 0
  · subst hb
    refine .inr (.inl ⟨[], 0 :: y, [], Cut.refl _, (fun _ h => nomatch h), fun fuel r => ?_⟩)
    simp [splitLines]
  by_cases hmax : hh.length < maxHdr
  swap
  · refine .inl fun fuel r => ?_
    rw [List.cons_append, splitLines]
    simp only [if_neg hb, decide_eq_false hmax, check_false, error_bind]
  by_cases hc : iscrlf (b :: y) = 0
  swap
  · -- the empty line
    refine .inr (.inl ⟨[], b :: y, [], Cut.refl _, (fun _ h => nomatch h), fun fuel r => ?_⟩)
    rw [List.cons_append, splitLines]
    simp only [if_neg hb, decide_eq_true hmax, check_true, ok_bind, ← List.cons_append,
      iscrlf_nul, ne_eq, hc, not_false_eq_true, if_true, List.append_nil]
    rfl
  obtain ⟨p, q, rfl, hq, hline⟩ := skipLine_nul y
  have hrun := splitLines_line (d := d) hb hmax hc hline
  by_cases hnul : (q ++ [0]).head? = some 0
  · -- the last line ends with the message
    refine .inr (.inl ⟨b :: p, q, [some d.length], Cut.refl _, ?_, fun fuel r => ?_⟩)
    · intro k hk
      cases List.mem_singleton.mp hk
      exact Nat.le_refl _
    · rw [hrun, if_pos hnul]
  · have hcr : iscrlf q ≠ 0 := by
      rcases hq with hq | hq | hq
      · cases q with
        | nil => exact absurd rfl hnul
        | cons c q => cases hq
      · cases q with
        | nil => cases hq
        | cons c q => exact absurd hq hnul
      · exact hq
    obtain ⟨e, t, hlt, hcut, hcutLine⟩ := cutLine_crlf hcr
    refine .inr (.inr ⟨b :: p ++ e, t, ?_, ?_, fun fuel r => ?_⟩)
    · rw [List.length_append]
      omega
    · rw [List.append_assoc]
      exact (Cut.refl (b :: p)).append hcut
    · rw [hrun, if_neg hnul, hcutLine, ok_bind, List.append_assoc]

/-- The cutting of the lines stops at a NUL: it does not matter what is behind it, and how much fuel
there is beyond the message. -/
theorem splitLines_in : ∀ (n : Nat) (y d : Bytes) (hh : List (Option Nat)), y.length ≤ n →
    (∀ fuel r, y.length < fuel → splitLines fuel ⟨d, y ++ 0 :: r⟩ hh = .error .assert) ∨
      ∃ e t hs, Cut y (e ++ t) ∧ (∀ p, some p ∈ hs → p ≤ d.length + y.length) ∧
        ∀ fuel r, y.length < fuel →
          splitLines fuel ⟨d, y ++ 0 :: r⟩ hh = .ok (⟨d ++ e, t ++ 0 :: r⟩, hh ++ hs) := by
  have hsucc : ∀ {k fuel : Nat}, k < fuel → ∃ f, fuel = f + 1 :=
    fun h => Nat.exists_eq_succ_of_ne_zero (Nat.ne_of_gt (Nat.zero_lt_of_lt h))
  intro n
  induction n with
  | zero =>
    intro y d hh hy
    obtain rfl := List.eq_nil_of_length_eq_zero (Nat.le_zero.mp hy)
    refine .inr ⟨[], [], [], .nil, (fun _ h => nomatch h), fun fuel r hf => ?_⟩
    obtain ⟨fuel, rfl⟩ := hsucc hf
    simp [splitLines]
  | succ n ih =>
    intro y d hh hy
    rcases y with _ | ⟨b, y⟩
    · exact ih [] d hh (Nat.zero_le n)
    rw [List.length_cons] at hy
    rcases splitLines_turn b y d hh with hbad | ⟨e, t, hs, hcut, hptr, hgood⟩ |
      ⟨e, t, hle, hcut, hstep⟩
    · refine .inl fun fuel r hf => ?_
      obtain ⟨fuel, rfl⟩ := hsucc hf
      exact hbad fuel r
    · refine .inr ⟨e, t, hs, hcut, fun k hk => Nat.le_add_right_of_le (hptr k hk),
        fun fuel r hf => ?_⟩
      obtain ⟨fuel, rfl⟩ := hsucc hf
      exact hgood fuel r
    · have hlen : e.length + t.length = y.length + 1 := by
        rw [← List.length_append]
        exact hcut.length_eq.symm
      rcases ih t (d ++ e) (hh ++ [some d.length]) (by omega) with
        hbad | ⟨e', t', hs, hcut', hptr, hgood⟩
      · refine .inl fun fuel r hf => ?_
        obtain ⟨fuel, rfl⟩ := hsucc hf
        rw [List.length_cons] at hf
        rw [hstep, hbad fuel r (by omega)]
      · refine .inr ⟨e ++ e', t', some d.length :: hs, ?_, ?_, fun fuel r hf => ?_⟩
        · have := hcut.trans ((Cut.refl e).append hcut')
          simpa only [List.append_assoc] using this
        · intro k hk
          rcases List.mem_cons.mp hk with hk | hk
          · cases hk
            exact Nat.le_add_right _ _
          · have := hptr k hk
            rw [List.length_append] at this
            rw [List.length_cons]
            omega
        · obtain ⟨fuel, rfl⟩ := hsucc hf
          rw [List.length_cons] at hf
          rw [hstep, hgood fuel r (by omega), List.append_assoc, List.append_assoc]
          rfl

/-! ## The whole header -/

/-- The cutting does not go past the message. -/
def InMessage (m : Bytes) : Prop := (m ++ [0]).head? = some 0 ∨ InFirstLine m

/-- `vct_skipcrlf` and the assertion behind it. -/
theorem drop_iscrlf (t r : Bytes) : ((t ++ 0 :: r).drop (iscrlf (t ++ 0 :: r))).head? =
    (t.drop (iscrlf t) ++ [0]).head? := by
  have hle : iscrlf t ≤ t.length := by
    by_cases h : iscrlf t = 0
    · omega
    · rcases iscrlf_ne_zero h with ⟨u, rfl⟩ | ⟨u, rfl⟩ <;> simp [iscrlf]
  rw [iscrlf_nul, List.drop_append_of_le_length hle, head_nul]

theorem httpSplitheader_in {m : Bytes} (h : InMessage m) :
    (∀ r, httpSplitheader (m ++ 0 :: r) = .error .assert) ∨
      ∃ m' hh, Cut m m' ∧ (∀ p, some p ∈ hh → p ≤ m.length) ∧
        ∀ r, httpSplitheader (m ++ 0 :: r) = .ok (m' ++ 0 :: r, hh) := by
  by_cases h0 : (m ++ [0]).head? = some 0
  · refine .inr ⟨m, [], Cut.refl m, (fun _ h => nomatch h), fun r => ?_⟩
    rw [httpSplitheader, head_nul, if_pos h0]
  have hrun : ∀ r, httpSplitheader (m ++ 0 :: r) = splitFirst (m ++ 0 :: r) >>= fun x =>
      splitLines (x.1.rest.length + 1) x.1 x.2 >>= fun x =>
      check ((x.1.rest.drop (iscrlf x.1.rest)).head? = some 0) >>= fun _ =>
      .ok (x.1.done ++ x.1.rest, x.2) := by
    intro r
    rw [httpSplitheader, head_nul, if_neg h0]
    rfl
  rcases splitFirst_in (h.resolve_left h0) with hbad | ⟨d, y, hh, hcut, hptr, h3, hfirst⟩
  · exact .inl fun r => by rw [hrun, hbad, error_bind]
  have hlen : d.length + y.length = m.length := by
    rw [← List.length_append]
    exact hcut.length_eq.symm
  rcases splitLines_in y.length y d hh (Nat.le_refl _) with hbad | ⟨e, t, hs, hcut', hptr', hlines⟩
  · refine .inl fun r => ?_
    rw [hrun, hfirst, ok_bind, hbad _ _ (by simp), error_bind]
  by_cases hnul : (t.drop (iscrlf t) ++ [0]).head? = some 0
  · refine .inr ⟨d ++ e ++ t, hh ++ hs, ?_, ?_, fun r => ?_⟩
    · rw [List.append_assoc]
      exact hcut.trans ((Cut.refl d).append hcut')
    · intro p hp
      rcases List.mem_append.mp hp with hp | hp
      · exact hptr p hp
      · exact hlen ▸ hptr' p hp
    · rw [hrun, hfirst, ok_bind, hlines _ _ (by simp), ok_bind]
      simp only [drop_iscrlf, hnul, decide_true, check_true, ok_bind, List.append_assoc]
  · refine .inl fun r => ?_
    rw [hrun, hfirst, ok_bind, hlines _ _ (by simp), ok_bind]
    simp only [drop_iscrlf, decide_eq_false hnul, check_false, error_bind]

theorem word_past {r : Bytes} (hr : ∀ b ∈ r, islws b = false) :
    ∀ b ∈ (0 : UInt8) :: r, (!islws b) = true := by
  intro b hb
  rcases List.mem_cons.mp hb with rfl | hb
  · rfl
  · rw [hr b hb]
    rfl

/-- The scan for the second word runs over the NUL, or the one for the end of the line. -/
theorem splitSecond_out {y : Bytes} (h : ¬InSecond y) (p0 : Option Nat) :
    (∀ d r, (∀ b ∈ r, islws b = false) → splitSecond p0 ⟨d, y ++ 0 :: r⟩ = .error .ub) ∨
      (y ≠ [] ∧ y.getLast? ≠ some 10 ∧
        (∀ d r, 10 ∉ r → splitSecond p0 ⟨d, y ++ 0 :: r⟩ = .error .assert) ∧
        ∀ d z, ∃ d' hh, splitSecond p0 ⟨d, y ++ 0 :: 10 :: z⟩ = .ok (⟨d', z⟩, hh)) := by
  rw [InSecond, not_or, not_and, not_not] at h
  obtain ⟨hc2, h3⟩ := h
  have hstop : ∀ d r, skipWhile issp d (y ++ 0 :: r) =
      .ok ⟨d ++ y.takeWhile issp, y.dropWhile issp ++ 0 :: r⟩ := skipWhile_stop (by decide) y
  by_cases hx3 : (y.dropWhile issp).dropWhile (!islws ·) = []
  · refine .inl fun d r hr => ?_
    rw [splitSecond, hstop, ok_bind]
    simp only [iscrlf_nul, hc2, decide_true, check_true, ok_bind,
      skipWhile_past hx3 (word_past hr), error_bind]
  have h3 := h3 hx3
  rw [not_or, not_not] at h3
  obtain ⟨hc3, hlf⟩ := h3
  have hy : y = y.takeWhile issp ++ ((y.dropWhile issp).takeWhile (!islws ·) ++
      (y.dropWhile issp).dropWhile (!islws ·)) := by
    rw [List.takeWhile_append_dropWhile, List.takeWhile_append_dropWhile]
  have hskip := fun d r => skipWhile_in hx3 d (0 :: r)
  generalize (y.dropWhile issp).takeWhile (!islws ·) = w3 at *
  generalize (y.dropWhile issp).dropWhile (!islws ·) = x3 at *
  obtain ⟨c, v, rfl⟩ := List.exists_cons_of_ne_nil hx3
  have hc : c ≠ 10 := by
    rintro rfl
    exact absurd hc3 (by simp [iscrlf])
  have hrun : ∀ d r, splitSecond p0 ⟨d, y ++ 0 :: r⟩ =
      splitThird p0 (some (d ++ y.takeWhile issp).length)
        ⟨d ++ y.takeWhile issp ++ w3 ++ [0], v ++ 0 :: r⟩ := by
    intro d r
    rw [splitSecond, hstop, ok_bind]
    simp only [iscrlf_nul, hc2, decide_true, check_true, ok_bind, hskip, ne_eq, hc3,
      not_true_eq_false, if_false]
    rfl
  have hlf' : 10 ∉ v.dropWhile issp := fun h => hlf ((List.dropWhile_suffix _).subset h)
  refine .inr ⟨by rw [hy]; simp, ?_, fun d r hr => ?_, fun d z => ?_⟩
  · rw [hy, ← List.append_assoc, List.getLast?_append_of_ne_nil _ (List.cons_ne_nil c v)]
    intro hlast
    rcases List.mem_cons.mp (List.mem_of_getLast? hlast) with rfl | hv
    · exact hc rfl
    · exact hlf hv
  · rw [hrun, splitThird, skipWhile_stop (by decide), ok_bind]
    simp only [skipLine_past hlf', skipLine_off hr, error_bind]
  · rw [hrun, splitThird, skipWhile_stop (by decide), ok_bind]
    simp only [skipLine_past hlf']
    exact ⟨_, _, rfl⟩

/-- How the cutting goes past a message: a scan for a word runs over the NUL, or the one for the end
of the first line. -/
theorem httpSplitheader_out {m : Bytes} (h : ¬InMessage m) :
    (∀ r, (∀ b ∈ r, islws b = false) → httpSplitheader (m ++ 0 :: r) = .error .ub) ∨
      (m.getLast? ≠ some 10 ∧ (∀ r, 10 ∉ r → httpSplitheader (m ++ 0 :: r) = .error .assert) ∧
        ∀ n, httpSplitheader (m ++ 0 :: 10 :: List.replicate n 0) ≠ .error .assert) := by
  rw [InMessage, not_or] at h
  obtain ⟨h0, hline⟩ := h
  have hstop : ∀ r, skipWhile islws [] (m ++ 0 :: r) =
      .ok ⟨m.takeWhile islws, m.dropWhile islws ++ 0 :: r⟩ := skipWhile_stop (by decide) m []
  have hm : m = m.takeWhile islws ++ ((m.dropWhile islws).takeWhile (!islws ·) ++
      (m.dropWhile islws).dropWhile (!islws ·)) := by
    rw [List.takeWhile_append_dropWhile, List.takeWhile_append_dropWhile]
  by_cases hx1 : (m.dropWhile islws).dropWhile (!islws ·) = []
  · refine .inl fun r hr => ?_
    rw [httpSplitheader, head_nul, if_neg h0, splitFirst_eq, hstop, ok_bind,
      skipWhile_past hx1 (word_past hr)]
    rfl
  rw [InFirstLine, not_and, not_or] at hline
  obtain ⟨hc1, h2⟩ := hline hx1
  rw [not_not] at hc1
  have hskip := fun d r => skipWhile_in hx1 d (0 :: r)
  generalize m.takeWhile islws = w0 at *
  generalize (m.dropWhile islws).takeWhile (!islws ·) = w1 at *
  generalize (m.dropWhile islws).dropWhile (!islws ·) = x1 at *
  obtain ⟨b, t, rfl⟩ := List.exists_cons_of_ne_nil hx1
  have h2 : ¬InSecond t := h2
  have hrun : ∀ r, splitFirst (m ++ 0 :: r) =
      splitSecond (some w0.length) ⟨w0 ++ w1 ++ [0], t ++ 0 :: r⟩ := by
    intro r
    rw [splitFirst_eq, hstop, ok_bind]
    simp only [hskip, ok_bind, iscrlf_nul, hc1, decide_true, check_true]
    rfl
  have hall : ∀ r, httpSplitheader (m ++ 0 :: r) =
      splitSecond (some w0.length) ⟨w0 ++ w1 ++ [0], t ++ 0 :: r⟩ >>= fun x =>
      splitLines (x.1.rest.length + 1) x.1 x.2 >>= fun x =>
      check ((x.1.rest.drop (iscrlf x.1.rest)).head? = some 0) >>= fun _ =>
      .ok (x.1.done ++ x.1.rest, x.2) := by
    intro r
    rw [httpSplitheader, head_nul, if_neg h0, hrun]
    rfl
  rcases splitSecond_out h2 (some w0.length) with hub | ⟨ht, hlast, hbad, hgood⟩
  · exact .inl fun r hr => by rw [hall, hub _ _ hr, error_bind]
  refine .inr ⟨?_, fun r hr => by rw [hall, hbad _ _ hr, error_bind], fun n => ?_⟩
  · rw [hm, ← List.append_assoc, ← List.singleton_append, ← List.append_assoc,
      List.getLast?_append_of_ne_nil _ ht]
    exact hlast
  · obtain ⟨d', hh, hok⟩ := hgood (w0 ++ w1 ++ [0]) (List.replicate n 0)
    rw [hall, hok, ok_bind]
    cases n with
    | zero => simp [splitLines]
    | succ n => simp [splitLines, List.replicate_succ, iscrlf]

/-! ## The fields -/

theorem Cut.takeWhile {x x' : Bytes} (h : Cut x x') : x'.takeWhile (· ≠ 0) <+: x := by
  induction h with
  | nil => exact List.nil_prefix
  | @cons b c x x' hc _ ih =>
    rw [List.takeWhile_cons]
    split
    · rename_i hne
      rcases hc with rfl | rfl
      · exact (List.prefix_cons_inj c).mpr ih
      · exact absurd hne (by decide)
    · exact List.nil_prefix

theorem Cut.drop {x x' : Bytes} (h : Cut x x') (k : Nat) : Cut (x.drop k) (x'.drop k) := by
  induction h generalizing k with
  | nil =>
    rw [List.drop_nil]
    exact .nil
  | cons hc hx ih =>
    cases k with
    | zero => exact .cons hc hx
    | succ k => exact ih k

/-- A field of a cut message is a part of the message, whatever is behind the NUL. -/
theorem cstr_cut {m m' : Bytes} (h : Cut m m') {p : Nat} (hp : p ≤ m.length) :
    ∃ f, f <:+: m ∧ ∀ r, cstr (m' ++ 0 :: r) p = f := by
  refine ⟨(m'.drop p).takeWhile (· ≠ 0), ?_, fun r => ?_⟩
  · exact (h.drop p).takeWhile.isInfix.trans (List.drop_suffix p m).isInfix
  · rw [cstr, List.drop_append_of_le_length (h.length_eq ▸ hp), takeWhile_nul]

/-! ## Receiving -/

/-- No beginning of the bytes ends the header. -/
def Unended : HdrSt → Bytes → Prop
  | _, [] => True
  | s, b :: t =>
    match hdrNext s b with
    | none => False
    | some s => Unended s t

/-- A message ends with an empty line, or the connection ends before that. -/
inductive MsgEnd where
  | blank
  | eof

/-- The message that `http_rxhdr` is to receive. -/
def Incoming (hp : Http) (m : Bytes) : MsgEnd → Prop
  | .blank => EndsAt .text m ∧ ∃ rest, hp.stream = m ++ rest
  | .eof => Unended .text m ∧ hp.stream = m ∧ hp.fatal = false

theorem Incoming.with_mem {hp : Http} {m : Bytes} {e : MsgEnd} (h : Incoming hp m e)
    (mem : Bytes) : Incoming { hp with mem := mem } m e := by
  cases e with
  | blank => exact h
  | eof => exact h

/-- How far the buffer is looked at: one more byte is asked for to see the connection end. -/
def MsgEnd.need (m : Bytes) : MsgEnd → Nat
  | blank => m.length
  | eof => m.length + 1

/-- A header that ends is ended by an LF. -/
theorem EndsAt.getLast {s : HdrSt} {m : Bytes} (h : EndsAt s m) : m.getLast? = some 10 := by
  induction m generalizing s with
  | nil => exact h.elim
  | cons b t ih =>
    rw [EndsAt] at h
    split at h
    · rename_i hnext
      subst h
      have hb : b = 10 := by
        by_contra hb
        by_cases h13 : b = 13
        · subst h13
          cases s <;> cases hnext
        · rw [hdrNext_text h13 hb] at hnext
          cases hnext
      rw [hb]
      rfl
    · have ht : t ≠ [] := by
        rintro rfl
        exact h
      rw [← List.singleton_append, List.getLast?_append_of_ne_nil _ ht]
      exact ih h

/-- One byte of the header is read. -/
theorem rxhdrLoop_cons {fuel : Nat} {s : HdrSt} {hp : Http} {a r t : Bytes} {b : UInt8}
    (hb : Benign hp.turns) (hm : hp.mem = a ++ r) (hp0 : hp.rxp = a.length)
    (hs : hp.stream = b :: t) (hl : 1 < r.length) :
    ∃ turns, Benign turns ∧ rxhdrLoop (fuel + 1) s hp =
      match hdrNext s b with
      | none => .ok (1, hp.taken a [b] (0 :: r.drop 2) t turns)
      | some s => rxhdrLoop fuel s (hp.taken a [b] (0 :: r.drop 2) t turns) := by
  obtain ⟨r1, turns, hrun, hb1, -, h0⟩ := @httpRxchar_spec hp a [b] r t true hb hm hp0 hs hl
  have h0 := h0.resolve_left fun h => List.cons_ne_nil _ _ h.1
  subst h0
  refine ⟨turns, hb1, ?_⟩
  have hbyte : (hp.taken a [b] (0 :: r.drop 2) t turns).mem.getD hp.rxp 0 = b := by
    simp [Http.taken, hp0]
  rw [rxhdrLoop, show httpRxchar hp 1 true = _ from hrun, ok_bind]
  simp only [if_neg (by decide : ¬(1 : Int) < 1)]
  rw [show (hp.taken a [b] (0 :: r.drop ([b].length + 1)) t turns).mem.getD hp.rxp 0 = b from hbyte]
  rfl

theorem rxhdrLoop_noroom {rest : Bytes} :
    ∀ (m : Bytes) (fuel : Nat) (s : HdrSt) (hp : Http) (a r : Bytes), m.length < fuel →
      Benign hp.turns → hp.mem = a ++ r → hp.rxp = a.length →
      (EndsAt s m ∧ hp.stream = m ++ rest ∧ r.length ≤ m.length ∨
        Unended s m ∧ hp.stream = m ∧ r.length ≤ m.length + 1) →
      rxhdrLoop fuel s hp = .error .assert := by
  intro m
  induction m with
  | nil =>
    intro fuel s hp a r hf hb hm hp0 hcase
    obtain ⟨fuel, rfl⟩ : ∃ n, fuel = n + 1 := ⟨fuel - 1, by simp at hf; omega⟩
    have hl : r.length ≤ 1 := by
      rcases hcase with ⟨h, -⟩ | ⟨-, -, h⟩
      · exact h.elim
      · exact h
    rw [rxhdrLoop, show httpRxchar hp 1 true = _ from
      httpRxchar_noroom true hb hm hp0 (by decide) hl]
    rfl
  | cons b m ih =>
    intro fuel s hp a r hf hb hm hp0 hcase
    obtain ⟨fuel, rfl⟩ : ∃ n, fuel = n + 1 := ⟨fuel - 1, by simp at hf; omega⟩
    simp only [List.length_cons] at hf hcase
    by_cases hl : r.length ≤ 1
    · rw [rxhdrLoop, show httpRxchar hp 1 true = _ from
        httpRxchar_noroom true hb hm hp0 (by decide) hl]
      rfl
    have hlen : ((0 : UInt8) :: r.drop 2).length = r.length - 1 := by
      rw [List.length_cons, List.length_drop]
      omega
    rcases hcase with ⟨hend, hs, hle⟩ | ⟨hend, hs, hle⟩
    · obtain ⟨turns, hb1, hrun⟩ :=
        @rxhdrLoop_cons fuel s hp a r (m ++ rest) b hb hm hp0 hs (by omega)
      rw [hrun]
      rw [EndsAt] at hend
      cases hnext : hdrNext s b with
      | none =>
        rw [hnext] at hend
        subst hend
        exact absurd hle hl
      | some s' =>
        rw [hnext] at hend
        exact ih fuel s' (hp.taken a [b] (0 :: r.drop 2) (m ++ rest) turns) (a ++ [b]) _ (by omega)
          hb1 rfl (by simp [Http.taken]) (.inl ⟨hend, rfl, by rw [hlen]; omega⟩)
    · obtain ⟨turns, hb1, hrun⟩ := @rxhdrLoop_cons fuel s hp a r m b hb hm hp0 hs (by omega)
      rw [hrun]
      rw [Unended] at hend
      cases hnext : hdrNext s b with
      | none =>
        rw [hnext] at hend
        exact hend.elim
      | some s' =>
        rw [hnext] at hend
        exact ih fuel s' (hp.taken a [b] (0 :: r.drop 2) m turns) (a ++ [b]) _ (by omega)
          hb1 rfl (by simp [Http.taken]) (.inr ⟨hend, rfl, by rw [hlen]; omega⟩)

theorem rxhdrLoop_eof :
    ∀ (m : Bytes) (fuel : Nat) (s : HdrSt) (hp : Http) (a r : Bytes), Unended s m →
      m.length < fuel → Benign hp.turns → hp.mem = a ++ r → hp.rxp = a.length → hp.stream = m →
      m.length + 1 < r.length → r.head? = some 0 →
      ∃ turns, rxhdrLoop fuel s hp =
        .ok (0, hp.taken a m (0 :: r.drop (m.length + 1)) [] turns) := by
  intro m
  induction m with
  | nil =>
    intro fuel s hp a r _ hf hb hm hp0 hs hl h0
    obtain ⟨fuel, rfl⟩ : ∃ n, fuel = n + 1 := ⟨fuel - 1, by simp at hf; omega⟩
    obtain ⟨r', turns, hrun, -, -, hr⟩ :=
      @httpRxchar_short hp a r 1 true hb hm hp0 (by rw [hs]; decide) hl
    obtain ⟨r, rfl⟩ := List.head?_eq_some_iff.mp h0
    have hr' : r' = 0 :: r := by
      rcases hr with ⟨-, rfl⟩ | rfl
      · rfl
      · rw [hs]
        rfl
    refine ⟨turns, ?_⟩
    rw [rxhdrLoop, show httpRxchar hp 1 true = _ from hrun, hs, hr']
    rfl
  | cons b m ih =>
    intro fuel s hp a r hend hf hb hm hp0 hs hl h0
    obtain ⟨fuel, rfl⟩ : ∃ n, fuel = n + 1 := ⟨fuel - 1, by simp at hf; omega⟩
    simp only [List.length_cons] at hf hl
    obtain ⟨turns, hb1, hrun⟩ := @rxhdrLoop_cons fuel s hp a r m b hb hm hp0 hs (by omega)
    rw [hrun]
    rw [Unended] at hend
    cases hnext : hdrNext s b with
    | none =>
      rw [hnext] at hend
      exact hend.elim
    | some s' =>
      rw [hnext] at hend
      obtain ⟨turns', hrest⟩ := ih fuel s' (hp.taken a [b] (0 :: r.drop 2) m turns) (a ++ [b])
        (0 :: r.drop 2) hend (by omega) hb1 rfl (by simp [Http.taken]) rfl
        (by simp only [List.length_cons, List.length_drop]; omega) rfl
      refine ⟨turns', ?_⟩
      rw [List.drop_succ_cons, List.drop_drop, taken_taken] at hrest
      rw [List.length_cons, Nat.add_assoc, Nat.add_comm m.length]
      exact hrest

/-- `http_rxhdr` leaves the message, a NUL, and what has been behind it all the time. -/
theorem httpRxhdr_incoming {hp : Http} {m : Bytes} {e : MsgEnd} (hin : Incoming hp m e)
    (hb : Benign hp.turns) (hl : e.need m < hp.mem.length) :
    ∃ hp', httpRxhdr hp = .ok hp' ∧ hp'.mem = m ++ 0 :: hp.mem.drop (m.length + 1) := by
  cases e with
  | blank =>
    obtain ⟨hend, rest, hs⟩ := hin
    obtain ⟨r, turns, hrun, -, -, rfl⟩ := httpRxhdr_spec hend hb hs hl
    exact ⟨_, hrun, rfl⟩
  | eof =>
    obtain ⟨hend, hs, hf⟩ := hin
    have hl : m.length + 1 < hp.mem.length := hl
    obtain ⟨c, mem, hmem⟩ := List.exists_cons_of_ne_nil (List.ne_nil_of_length_pos (by omega :
      0 < hp.mem.length))
    rw [hmem] at hl ⊢
    obtain ⟨turns, hrun⟩ := rxhdrLoop_eof m (hp.stream.length + 1) .text
      { hp with rxp := 0, mem := hp.mem.set 0 0, body := none, bodylen := undef } []
      (0 :: mem) hend (by rw [hs]; omega) hb (by rw [hmem]; rfl) rfl hs hl rfl
    let hp1 : Http := Http.taken
      { hp with rxp := 0, mem := hp.mem.set 0 0, body := none, bodylen := undef } [] m
      (0 :: mem.drop m.length) [] turns
    refine ⟨{ hp1 with mem := hp1.mem.set hp1.rxp 0, body := some hp1.rxp }, ?_, ?_⟩
    · have hquiet : fatalIf (hp1.fatal && (0 : Int) < 1) = .ok () := by
        rw [show hp1.fatal = false from hf]
        rfl
      rw [httpRxhdr, show rxhdrLoop _ _ _ = .ok (0, hp1) from hrun, ok_bind]
      simp only [hquiet, ok_bind]
      rfl
    · simp [hp1, Http.taken]

theorem httpRxhdr_overrun {hp : Http} {m : Bytes} {e : MsgEnd} (hin : Incoming hp m e)
    (hb : Benign hp.turns) (hl : hp.mem.length ≤ e.need m) : httpRxhdr hp = .error .assert := by
  have hlen : (hp.mem.set 0 0).length = hp.mem.length := List.length_set
  rw [httpRxhdr]
  cases e with
  | blank =>
    obtain ⟨hend, rest, hs⟩ := hin
    have hl : hp.mem.length ≤ m.length := hl
    rw [rxhdrLoop_noroom m (hp.stream.length + 1) .text
      { hp with rxp := 0, mem := hp.mem.set 0 0, body := none, bodylen := undef } []
      (hp.mem.set 0 0) (by rw [hs]; simp) hb rfl rfl
      (.inl ⟨hend, hs, by rw [hlen]; exact hl⟩), error_bind]
  | eof =>
    obtain ⟨hend, hs, -⟩ := hin
    have hl : hp.mem.length ≤ m.length + 1 := hl
    rw [@rxhdrLoop_noroom [] m (hp.stream.length + 1) .text
      { hp with rxp := 0, mem := hp.mem.set 0 0, body := none, bodylen := undef } []
      (hp.mem.set 0 0) (by rw [hs]; omega) hb rfl rfl
      (.inr ⟨hend, hs, by rw [hlen]; exact hl⟩), error_bind]

/-! ## What comes of a message -/

/-- The fields that `http_rxhdr` and `http_splitheader` find. -/
def parsed (hp : Http) : Res (List (Option Bytes)) := do
  let hp ← rxHeader hp
  return hp.resp.map (Option.map (cstr hp.mem))

/-- A failure that is reported, or fields that are parts of the message and end with NULL within
`MAX_HDR`. -/
def Fine (m : Bytes) : Res (List (Option Bytes)) → Prop
  | .ok fields => fields.length < maxHdr ∧ ∀ f, some f ∈ fields → f <:+: m
  | .error t => t = .fatal ∨ t = .assert

/-- The outcome is the same whatever the buffer holds. -/
def StaleFree (hp : Http) (m : Bytes) : Prop :=
  ∀ mem mem' : Bytes, mem.length = hp.mem.length → mem'.length = hp.mem.length →
    parsed { hp with mem := mem } = parsed { hp with mem := mem' } ∧
      Fine m (parsed { hp with mem := mem })

theorem parsed_eq {hp : Http} {m : Bytes} {e : MsgEnd} (hin : Incoming hp m e)
    (hb : Benign hp.turns) (hl : e.need m < hp.mem.length) :
    parsed hp = httpSplitheader (m ++ 0 :: hp.mem.drop (m.length + 1)) >>= fun x =>
      .ok (x.2.map (Option.map (cstr x.1))) := by
  obtain ⟨hp', hrx, hmem⟩ := httpRxhdr_incoming hin hb hl
  rw [parsed, rxHeader, hrx, ok_bind, ← hmem]
  cases httpSplitheader hp'.mem <;> rfl

theorem parsed_overrun {hp : Http} {m : Bytes} {e : MsgEnd} (hin : Incoming hp m e)
    (hb : Benign hp.turns) (hl : hp.mem.length ≤ e.need m) : parsed hp = .error .assert := by
  rw [parsed, rxHeader, httpRxhdr_overrun hin hb hl]
  rfl

/-- The fields of a message that is cut without going past it. -/
theorem fields_cut {m m' : Bytes} {hh : List (Option Nat)} (hcut : Cut m m')
    (hptr : ∀ p, some p ∈ hh → p ≤ m.length) (r r' : Bytes) :
    hh.map (Option.map (cstr (m' ++ 0 :: r))) = hh.map (Option.map (cstr (m' ++ 0 :: r'))) ∧
      ∀ f, some f ∈ hh.map (Option.map (cstr (m' ++ 0 :: r))) → f <:+: m := by
  constructor
  · refine List.map_congr_left fun x hx => ?_
    cases x with
    | none => rfl
    | some p =>
      obtain ⟨f, -, hf⟩ := cstr_cut hcut (hptr p hx)
      rw [Option.map_some, Option.map_some, hf, hf]
  · intro f hf
    obtain ⟨x, hx, hxf⟩ := List.mem_map.mp hf
    obtain ⟨p, rfl, rfl⟩ := Option.map_eq_some_iff.mp hxf
    obtain ⟨g, hg, hgr⟩ := cstr_cut hcut (hptr p hx)
    rw [hgr]
    exact hg

section

variable {hp : Http} {m : Bytes} {e : MsgEnd} (hin : Incoming hp m e) (hb : Benign hp.turns)

include hin hb

theorem Incoming.parsed_eq {mem : Bytes} (hmem : mem.length = hp.mem.length)
    (hl : e.need m < hp.mem.length) : parsed { hp with mem := mem } =
      httpSplitheader (m ++ 0 :: mem.drop (m.length + 1)) >>= fun x =>
        .ok (x.2.map (Option.map (cstr x.1))) :=
  Http1.parsed_eq (hin.with_mem mem) hb (by rw [hmem]; exact hl)

theorem Incoming.staleFree_overrun (hl : hp.mem.length ≤ e.need m) : StaleFree hp m := by
  have hassert : ∀ mem : Bytes, mem.length = hp.mem.length →
      parsed { hp with mem := mem } = .error .assert :=
    fun mem hmem => parsed_overrun (hin.with_mem mem) hb (by rw [hmem]; exact hl)
  intro mem mem' hmem hmem'
  rw [hassert mem hmem, hassert mem' hmem']
  exact ⟨rfl, .inr rfl⟩

theorem Incoming.staleFree_in (hl : e.need m < hp.mem.length) (hmsg : InMessage m)
    (hmax : ∀ mem hh, httpSplitheader (m ++ [0]) = .ok (mem, hh) → hh.length < maxHdr) :
    StaleFree hp m := by
  intro mem mem' hmem hmem'
  rw [hin.parsed_eq hb hmem hl, hin.parsed_eq hb hmem' hl]
  rcases httpSplitheader_in hmsg with hbad | ⟨m', hh, hcut, hptr, hgood⟩
  · rw [hbad, hbad]
    exact ⟨rfl, .inr rfl⟩
  · obtain ⟨hsame, hsub⟩ :=
      fields_cut hcut hptr (mem.drop (m.length + 1)) (mem'.drop (m.length + 1))
    rw [hgood, hgood, ok_bind, ok_bind]
    refine ⟨congrArg Except.ok hsame, ?_, hsub⟩
    rw [List.length_map]
    exact hmax _ hh (hgood [])

/-- Other contents of the buffer give another outcome, or none that may be. -/
theorem Incoming.inMessage (hl : e.need m < hp.mem.length) (hfree : StaleFree hp m) :
    InMessage m := by
  by_contra hmsg
  have hlen : (List.replicate hp.mem.length (65 : UInt8)).length = hp.mem.length :=
    List.length_replicate
  have hdrop : ∀ k b, b ∈ (List.replicate hp.mem.length (65 : UInt8)).drop k → b = 65 :=
    fun k b hb => List.eq_of_mem_replicate (List.mem_of_mem_drop hb)
  rcases httpSplitheader_out hmsg with hub | ⟨hlast, hbad, hgood⟩
  · obtain ⟨-, hfine⟩ := hfree (List.replicate hp.mem.length 65) _ hlen hlen
    rw [hin.parsed_eq hb hlen hl, hub _ fun b hb => by rw [hdrop _ b hb]; rfl] at hfine
    rcases hfine with h | h <;> cases h
  · cases e with
    | blank => exact absurd hin.1.getLast hlast
    | eof =>
      have hl' : m.length + 1 < hp.mem.length := hl
      obtain ⟨n, hn⟩ : ∃ n, hp.mem.length = m.length + 1 + (n + 1) :=
        ⟨hp.mem.length - (m.length + 2), by omega⟩
      have hlen' : (List.replicate (m.length + 1) (65 : UInt8) ++
          10 :: List.replicate n 0).length = hp.mem.length := by
        simp [hn]
      have hdrop' : (List.replicate (m.length + 1) (65 : UInt8) ++
          10 :: List.replicate n 0).drop (m.length + 1) = 10 :: List.replicate n 0 :=
        List.drop_left' List.length_replicate
      have hsame := (hfree _ _ hlen hlen').1
      rw [hin.parsed_eq hb hlen hl, hin.parsed_eq hb hlen' hl, hdrop',
        hbad _ fun h => absurd (hdrop _ 10 h) (by decide), error_bind] at hsame
      cases hx : httpSplitheader (m ++ 0 :: 10 :: List.replicate n 0) with
      | error t =>
        rw [hx, error_bind] at hsame
        cases hsame
        exact absurd hx (hgood n)
      | ok x =>
        rw [hx, ok_bind] at hsame
        cases hsame

end

/-- A connection that hands out `stream`, and a buffer that holds `mem`. -/
def staleConn (mem stream : Bytes) : Http where
  mem := mem
  stream := stream

/-- An answer that is left in the buffer. -/
def oldAnswer : Bytes := ascii "HTTP/1.1 200 OK\r\nSet-Cookie: a\r\n\r\n" ++ [0]

end Http1
end VTest
