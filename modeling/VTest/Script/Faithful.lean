import VTest.Script.Quote

/-!
# VTest.Script.Faithful

A script that is written down from command lines is parsed back into them.

* `tokStep_quote`, `tokStep_brace`: a turn of the token loop at an argument.
* `collect_spec`: the token loop finds the arguments of a line.
* `endTokens_spec`: when the tokens have been ended, each of them is its argument.
* `parseLoop_spec`: the outer loop executes the lines in order.
-/

namespace VTest
namespace Script

/-! ## Writing a script -/

def escByte (b : UInt8) : Bytes :=
  if b = 10 then [92, 110]
  else if b = 13 then [92, 114]
  else if b = 9 then [92, 116]
  else if b = 34 then [92, 34]
  else if b = 92 then [92, 92]
  else [b]

def escText (w : Bytes) : Bytes := w.flatMap escByte

/-- Every beginning has at least as many opening braces as closing ones, and the whole as many. -/
structure Balanced (w : Bytes) : Prop where
  beginning : ∀ k, (w.take k).count 125 ≤ (w.take k).count 123
  whole : w.count 125 = w.count 123

/-- The text stands for the argument. -/
inductive Renders : Bytes → Bytes → Prop where
  | quote (w : Bytes) : Renders w (34 :: (escText w ++ [34]))
  | brace {w : Bytes} (h : Balanced w) : Renders w (123 :: (w ++ [125]))

/-- A blank within a line. -/
def Blank (b : UInt8) : Prop := isspace b = true ∧ b ≠ 10

/-- What separates arguments: blanks, and line ends that are hidden by a backslash behind a
blank. -/
inductive Gap : Bytes → Prop where
  | blank {b : UInt8} (h : Blank b) : Gap [b]
  | cont {b : UInt8} (h : Blank b) : Gap [b, 92, 10]
  | consBlank {b : UInt8} {g : Bytes} (h : Blank b) (t : Gap g) : Gap (b :: g)
  | consCont {b : UInt8} {g : Bytes} (h : Blank b) (t : Gap g) : Gap (b :: 92 :: 10 :: g)

inductive RendersLine : List Bytes → Bytes → Prop where
  | one {w t : Bytes} (h : Renders w t) : RendersLine [w] t
  | cons {w t g u : Bytes} {ws : List Bytes} (h : Renders w t) (hg : Gap g)
      (hu : RendersLine ws u) : RendersLine (w :: ws) (t ++ (g ++ u))

/-- Lines, joined by line ends, with or without one behind the last line. -/
inductive RendersScript : List (List Bytes) → Bytes → Prop where
  | nil : RendersScript [] []
  | last {args : List Bytes} {t : Bytes} (h : RendersLine args t) : RendersScript [args] t
  | cons {args : List Bytes} {t u : Bytes} {ls : List (List Bytes)} (h : RendersLine args t)
      (hu : RendersScript ls u) : RendersScript (args :: ls) (t ++ 10 :: u)

/-! ## Tokens -/

theorem escByte_cases (b : UInt8) :
    (∃ x, escByte b = [92, x] ∧ x ≠ 0 ∧ ∀ t, escape (92 :: x :: t) = (2, b)) ∨
      (escByte b = [b] ∧ b ≠ 10 ∧ b ≠ 34 ∧ b ≠ 92) := by
  unfold escByte
  split
  · subst b; exact .inl ⟨_, rfl, by simp, fun _ => rfl⟩
  split
  · subst b; exact .inl ⟨_, rfl, by simp, fun _ => rfl⟩
  split
  · subst b; exact .inl ⟨_, rfl, by simp, fun _ => rfl⟩
  split
  · subst b; exact .inl ⟨_, rfl, by simp, fun _ => rfl⟩
  split
  · subst b; exact .inl ⟨_, rfl, by simp, fun _ => rfl⟩
  · rename_i h10 _ _ h34 h92
    exact .inr ⟨rfl, h10, h34, h92⟩

/-- An argument in quotes is written in pieces. -/
theorem pieces_escText {r : Bytes} : ∀ w : Bytes, 0 ∉ w → Pieces (escText w ++ r) w r := by
  intro w
  induction w with
  | nil => intro _; exact .nil
  | cons b w ih =>
    intro h0
    simp only [List.mem_cons, not_or] at h0
    have htext : escText (b :: w) ++ r = escByte b ++ (escText w ++ r) := by
      simp [escText]
    rw [htext]
    rcases escByte_cases b with ⟨x, hx, hx0, hesc⟩ | ⟨hb, h10, h34, h92⟩
    · refine .cons (n := 2) ?_ (by rw [hx]; exact ih h0.2)
      rw [hx, List.cons_append, piece_escape, List.takeWhile_cons_of_pos (by simp),
        List.cons_append, List.takeWhile_cons_of_pos (by simpa using hx0), accepted, hesc]
      simp
    · refine .cons (n := 1) ?_ (by rw [hb]; exact ih h0.2)
      rw [hb]
      exact piece_plain _ (Ne.symm h0.1) h34 h10 h92

theorem getD_mid {a r : Bytes} (b : UInt8) : (a ++ b :: r).getD a.length 0 = b := by
  simp

/-- The tokens are where they should be: each behind the one before it, with a byte between them
that can be overwritten, all of them from `lo` on and in front of `hi`. -/
def Placed (m : Bytes) : Nat → List (Nat × Nat) → List Bytes → Nat → Prop
  | lo, [], [], hi => lo ≤ hi
  | lo, (s, e) :: toks, w :: ws, hi =>
    lo ≤ s ∧ Holds m s w ∧ e = s + w.length ∧ Placed m (e + 1) toks ws hi
  | _, _, _, _ => False

theorem Placed.le {m : Bytes} : ∀ {toks : List (Nat × Nat)} {ws : List Bytes} {lo hi : Nat},
    Placed m lo toks ws hi → lo ≤ hi := by
  intro toks
  induction toks with
  | nil =>
    intro ws lo hi h
    cases ws with
    | nil => exact h
    | cons w ws => exact h.elim
  | cons t toks ih =>
    intro ws lo hi h
    cases ws with
    | nil => exact h.elim
    | cons w ws =>
      obtain ⟨hlo, _, he, hrest⟩ := h
      have := ih hrest
      omega

/-- The tokens stay in place in a memory that holds them too, in front of any later end. -/
theorem Placed.imp {m m' : Bytes} {hi hi' : Nat} (hh : hi ≤ hi') :
    ∀ {toks : List (Nat × Nat)} {ws : List Bytes} {lo : Nat},
      (∀ s w, lo ≤ s → s + w.length < hi → Holds m s w → Holds m' s w) →
      Placed m lo toks ws hi → Placed m' lo toks ws hi' := by
  intro toks
  induction toks with
  | nil =>
    intro ws lo _ h
    cases ws with
    | nil => exact Nat.le_trans h hh
    | cons w ws => exact h.elim
  | cons t toks ih =>
    intro ws lo hmem h
    cases ws with
    | nil => exact h.elim
    | cons w ws =>
      obtain ⟨hlo, hw, he, hrest⟩ := h
      have hle := hrest.le
      refine ⟨hlo, hmem _ _ hlo (by omega) hw, he, ih (fun s v hs => ?_) hrest⟩
      exact hmem s v (by omega)

theorem Placed.of_common {a x y : Bytes} {toks : List (Nat × Nat)} {ws : List Bytes} {lo hi : Nat}
    (h : Placed (a ++ x) lo toks ws hi) (hle : hi ≤ a.length) : Placed (a ++ y) lo toks ws hi :=
  h.imp (Nat.le_refl hi) fun _ _ _ hlt hw => hw.of_common (by omega)

theorem Placed.mono {m : Bytes} {hi hi' : Nat} (hh : hi ≤ hi') {toks : List (Nat × Nat)}
    {ws : List Bytes} {lo : Nat} (h : Placed m lo toks ws hi) : Placed m lo toks ws hi' :=
  h.imp hh fun _ _ _ _ hw => hw

/-- A byte in front of the tokens may change. -/
theorem Placed.set {m : Bytes} {hi i : Nat} {c : UInt8} {toks : List (Nat × Nat)} {ws : List Bytes}
    {lo : Nat} (h : Placed m lo toks ws hi) (hi' : i < lo) : Placed (m.set i c) lo toks ws hi :=
  h.imp (Nat.le_refl hi) fun _ _ hlo _ hw => hw.set (.inl (by omega))

theorem Placed.snoc {m w : Bytes} {s hi' : Nat} (hw : Holds m s w) (hlt : s + w.length < hi') :
    ∀ {toks : List (Nat × Nat)} {ws : List Bytes} {lo hi : Nat},
      Placed m lo toks ws hi → hi ≤ s →
      Placed m lo (toks ++ [(s, s + w.length)]) (ws ++ [w]) hi' := by
  intro toks
  induction toks with
  | nil =>
    intro ws lo hi h hs
    cases ws with
    | nil =>
      have hlo : lo ≤ hi := h
      exact ⟨by omega, hw, rfl, hlt⟩
    | cons w ws => exact h.elim
  | cons t toks ih =>
    intro ws lo hi h hs
    cases ws with
    | nil => exact h.elim
    | cons v ws =>
      obtain ⟨hlo, hv, he, hrest⟩ := h
      exact ⟨hlo, hv, he, ih hrest hs⟩

/-! ## A turn of the token loop -/

/-- The token loop stands at `text`: the arguments `ws` of the line have been found in front of it,
from `lo` on. -/
structure At (e lo : Nat) (l : Line) (ws : List Bytes) (text : Bytes) : Prop where
  mem : ∃ a, l.m = a ++ text ∧ l.p = a.length
  len : l.m.length = e + 1
  placed : Placed l.m lo l.toks ws l.p
  count : l.toks.length = ws.length

theorem At.lt {e lo : Nat} {l : Line} {ws : List Bytes} {text : Bytes} (h : At e lo l ws text)
    (ht : 2 ≤ text.length) : l.p < e := by
  obtain ⟨a, hm, hp⟩ := h.mem
  have := h.len
  rw [hm, List.length_append] at this
  omega

/-- The loop moves on by some bytes without a new token. -/
theorem At.skip {e lo : Nat} {l : Line} {ws : List Bytes} {x text : Bytes}
    (h : At e lo l ws (x ++ text)) : At e lo { l with p := l.p + x.length } ws text := by
  obtain ⟨a, hm, hp⟩ := h.mem
  exact ⟨⟨a ++ x, by simp [hm], by simp [hp]⟩, h.len, h.placed.mono (Nat.le_add_right _ _), h.count⟩

/-- The loop moves on behind a new token, whose text `x` has become `y`. -/
theorem At.token {e lo : Nat} {l : Line} {ws : List Bytes} {a w x y text : Bytes}
    (h : At e lo l ws (x ++ text)) (hm : l.m = a ++ (x ++ text)) (hp : l.p = a.length)
    (hx : y.length = x.length) (hold : Holds y 1 w) (hlt : 1 + w.length < x.length) :
    At e lo { m := a ++ (y ++ text), p := l.p + x.length,
              toks := l.toks ++ [(l.p + 1, l.p + 1 + w.length)] } (ws ++ [w]) text := by
  have hlen := h.len
  have hplaced := h.placed
  rw [hm] at hlen hplaced
  have hold' : Holds (a ++ (y ++ text)) (l.p + 1) w := by
    have h1 : Holds (y ++ text) 1 w :=
      Holds.of_common (x := []) (by rwa [List.append_nil]) (by omega)
    have h2 := h1.append_left a
    rwa [← hp] at h2
  refine ⟨⟨a ++ y, by simp, by simp [hp, hx]⟩, ?_, ?_, by simp [h.count]⟩
  · simp only [List.length_append] at hlen ⊢
    omega
  · refine (hplaced.of_common (by omega)).snoc hold' ?_ (by omega)
    show l.p + 1 + w.length < l.p + x.length
    omega

section Turn

variable {e lo : Nat} {l : Line} {ws : List Bytes} {text : Bytes}

theorem At.getD {b : UInt8} (h : At e lo l ws (b :: text)) : l.m.getD l.p 0 = b := by
  obtain ⟨a, hm, hp⟩ := h.mem
  rw [hm, hp, getD_mid]

theorem check_count (h : At e lo l ws text) (hc : ws.length < maxTokens) :
    check (l.toks.length < maxTokens) = .ok () := by
  rw [h.count, decide_eq_true hc, check_true]

theorem tokStep_newline (h : At e lo l ws (10 :: text)) (hc : ws.length < maxTokens) :
    tokStep e l = .ok none := by
  rw [tokStep, check_count h hc, ok_bind, h.getD]
  rfl

theorem tokStep_blank {b : UInt8} (hb : Blank b) (h : At e lo l ws (b :: text))
    (hc : ws.length < maxTokens) : tokStep e l = .ok (some { l with p := l.p + 1 }) := by
  rw [tokStep, check_count h hc, ok_bind, h.getD]
  simp [hb.1, hb.2]

theorem tokStep_cont (h : At e lo l ws (92 :: 10 :: text)) (hc : ws.length < maxTokens) :
    tokStep e l = .ok (some { l with p := l.p + 2 }) := by
  have h1 : l.m.getD (l.p + 1) 0 = 10 := At.getD (At.skip (x := [92]) h)
  rw [tokStep, check_count h hc, ok_bind, h.getD, h1]
  rfl

theorem tokStep_quote {w t : Bytes} (ht : text = t ++ [0]) (h0 : 0 ∉ w)
    (h : At e lo l ws (34 :: (escText w ++ 34 :: text))) (hc : ws.length < maxTokens) :
    ∃ l', tokStep e l = .ok (some l') ∧ At e lo l' (ws ++ [w]) text := by
  obtain ⟨a, hm, hp⟩ := h.mem
  have hlen := h.len
  rw [hm] at hlen
  have hmem : l.m = a ++ [34] ++ [] ++ (escText w ++ 34 :: text) := by simp [hm]
  have hp1 : l.p + 1 = (a ++ [34] ++ []).length := by simp [hp]
  -- the pieces, and then the closing quote
  obtain ⟨junk, _, _, hrun, hlen'⟩ :=
    quoteAt_pieces (e := e) (pieces_escText (r := 34 :: text) w h0) (2 * e + 4 - w.length)
      (a ++ [34]) [] (escText w ++ 34 :: t) (by simp [ht])
      (by simpa using hlen)
  have hlt : (a ++ [34] ++ w ++ junk).length < e := by
    have : 0 < text.length := by simp [ht]
    simp only [List.length_append, List.length_cons, List.length_nil] at hlen' ⊢
    omega
  have hfuel : quoteFuel e = 2 * e + 4 - w.length + w.length := by
    simp only [List.length_append] at hlt
    rw [quoteFuel]
    omega
  have hone : 2 * e + 4 - w.length = (2 * e + 3 - w.length) + 1 := by
    simp only [List.length_append] at hlt
    omega
  have hquote : quoteLoop e (quoteFuel e) l.m (l.p + 1) (l.p + 1) =
      .ok (a ++ [34] ++ w ++ junk ++ 34 :: text, (a ++ [34] ++ w ++ junk).length,
        (a ++ [34] ++ w).length) := by
    have hq : l.p + 1 = (a ++ [34]).length := by simp [hp]
    rw [← quoteAt_closed (2 * e + 3 - w.length) hlt, ← hone, ← hrun, ← hfuel, quoteAt,
      ← hmem, ← hp1, ← hq]
  have hx : (34 :: (w ++ junk ++ [34])).length = (34 :: (escText w ++ [34])).length := by
    simp only [List.length_append, List.length_cons, List.length_nil] at hlen hlen' ⊢
    omega
  have hold : Holds (34 :: (w ++ junk ++ [34])) 1 w := by
    have := holds_append [34] w (junk ++ [34])
    simpa using this
  have hat := At.token (x := 34 :: (escText w ++ [34])) (y := 34 :: (w ++ junk ++ [34]))
    (by simpa using h) (by simpa using hm) hp hx hold
    (by rw [← hx]; simp only [List.length_append, List.length_cons]; omega)
  refine ⟨_, ?_, hat⟩
  have hp' : (a ++ [34] ++ w ++ junk).length + 1 = l.p + (34 :: (escText w ++ [34])).length := by
    rw [← hx, hp]
    simp only [List.length_append, List.length_cons, List.length_nil]
    omega
  have hq' : (a ++ [34] ++ w).length = l.p + 1 + w.length := by
    simp only [hp, List.length_append, List.length_cons, List.length_nil]
  have hm' : a ++ [34] ++ w ++ junk ++ 34 :: text = a ++ (34 :: (w ++ junk ++ [34]) ++ text) := by
    simp
  rw [tokStep, check_count h hc, ok_bind, h.getD, hquote, hq', hm', ← hp']
  rfl

/-- The brace that closes the token, from inside of `n` braces. -/
theorem braceEnd_spec {r : Bytes} :
    ∀ (w : Bytes) (n : Nat), (∀ k, (w.take k).count 125 ≤ n + (w.take k).count 123) →
      w.count 125 = n + w.count 123 → braceEnd (n + 1 : Nat) (w ++ 125 :: r) = w.length := by
  intro w
  induction w with
  | nil =>
    intro n _ hw
    have hn : n = 0 := by simpa using hw.symm
    subst hn
    rfl
  | cons b w ih =>
    intro n hk hw
    have hk1 : ∀ k, (b :: w.take k).count 125 ≤ n + (b :: w.take k).count 123 :=
      fun k => hk (k + 1)
    simp only [List.count_cons] at hk1 hw
    rw [List.cons_append, braceEnd, List.length_cons, Nat.add_comm w.length 1]
    by_cases hopen : b = 123
    · subst hopen
      rw [if_pos rfl]
      refine congrArg (1 + ·) (ih (n + 1) (fun k => ?_) ?_)
      · have := hk1 k
        simp at this
        omega
      · simp at hw
        omega
    · rw [if_neg hopen]
      by_cases hclose : b = 125
      · subst hclose
        have hn : 1 ≤ n := by simpa using hk1 0
        obtain ⟨n, rfl⟩ : ∃ k, n = k + 1 := ⟨n - 1, by omega⟩
        have hnest : ((n + 1 + 1 : Nat) : Int) - 1 = ((n + 1 : Nat) : Int) := by omega
        rw [if_pos rfl, hnest, if_neg (by omega)]
        refine congrArg (1 + ·) (ih n (fun k => ?_) ?_)
        · have := hk1 k
          simp at this
          omega
        · simp at hw
          omega
      · rw [if_neg hclose]
        refine congrArg (1 + ·) (ih n (fun k => ?_) ?_)
        · simpa [hopen, hclose] using hk1 k
        · simpa [hopen, hclose] using hw

theorem tokStep_brace {w t : Bytes} (ht : text = t ++ [0]) (hw : Balanced w)
    (h : At e lo l ws (123 :: (w ++ 125 :: text))) (hc : ws.length < maxTokens) :
    ∃ l', tokStep e l = .ok (some l') ∧ At e lo l' (ws ++ [w]) text := by
  obtain ⟨a, hm, hp⟩ := h.mem
  have hlen := h.len
  rw [hm, ht] at hlen
  have htext : (l.m.take e).drop l.p = 123 :: (w ++ 125 :: t) := by
    have he : e = (a ++ 123 :: (w ++ 125 :: t)).length := by
      simp only [List.length_append, List.length_cons, List.length_nil] at hlen ⊢
      omega
    have hm' : l.m = (a ++ 123 :: (w ++ 125 :: t)) ++ [0] := by simp [hm, ht]
    rw [hm', he, List.take_left, hp, List.drop_left]
  have hend : braceEnd 0 (123 :: (w ++ 125 :: t)) = 1 + w.length := by
    have := braceEnd_spec (r := t) w 0 (by simpa using hw.beginning) (by simpa using hw.whole)
    rw [braceEnd, if_pos rfl]
    exact congrArg (1 + ·) this
  have hclose : l.m.getD (l.p + (1 + w.length)) 0 = 125 := by
    have hm' : l.m = (a ++ 123 :: w) ++ 125 :: text := by simp [hm]
    have hp' : l.p + (1 + w.length) = (a ++ 123 :: w).length := by
      simp only [hp, List.length_append, List.length_cons]
      omega
    rw [hm', hp', getD_mid]
  have hold : Holds (123 :: (w ++ [125])) 1 w := by
    have := holds_append [123] w [125]
    simpa using this
  have hat := At.token (x := 123 :: (w ++ [125])) (y := 123 :: (w ++ [125]))
    (by simpa using h) (by simpa using hm) hp rfl hold (by simp; omega)
  refine ⟨_, ?_, hat⟩
  have hm' : a ++ (123 :: (w ++ [125]) ++ text) = l.m := by simp [hm]
  have hp' : l.p + (123 :: (w ++ [125])).length = l.p + (1 + w.length) + 1 := by
    simp only [List.length_append, List.length_cons, List.length_nil]
    omega
  rw [tokStep, check_count h hc, ok_bind, h.getD, htext, hend, hm', hp', Nat.add_assoc l.p 1]
  show (check (l.m.getD (l.p + (1 + w.length)) 0 = 125) >>= fun _ => _) = _
  rw [hclose]
  rfl

/-- A turn of the token loop at an argument. -/
theorem tokStep_arg {w x t : Bytes} (hx : Renders w x) (ht : text = t ++ [0]) (h0 : 0 ∉ w)
    (h : At e lo l ws (x ++ text)) (hc : ws.length < maxTokens) :
    ∃ l', tokStep e l = .ok (some l') ∧ At e lo l' (ws ++ [w]) text := by
  cases hx with
  | quote => exact tokStep_quote ht h0 (by simpa using h) hc
  | brace hw => exact tokStep_brace ht hw (by simpa using h) hc

end Turn

/-! ## The token loop -/

/-- The loop comes from one state to the other in at most `k` turns. -/
def Reaches (e : Nat) (l l' : Line) (k : Nat) : Prop :=
  ∃ n, n ≤ k ∧ ∀ fuel, collect e (fuel + n) l = collect e fuel l'

theorem Reaches.refl (e : Nat) (l : Line) : Reaches e l l 0 := ⟨0, Nat.le_refl 0, fun _ => rfl⟩

theorem Reaches.step {e k : Nat} {l l1 l2 : Line} (hlt : l.p < e)
    (h : tokStep e l = .ok (some l1)) (hr : Reaches e l1 l2 k) : Reaches e l l2 (k + 1) := by
  obtain ⟨n, hn, hrun⟩ := hr
  refine ⟨n + 1, by omega, fun fuel => ?_⟩
  rw [← Nat.add_assoc, collect, if_pos hlt, h, ← hrun fuel]
  rfl

theorem Reaches.mono {e k k' : Nat} {l l' : Line} (h : Reaches e l l' k) (hk : k ≤ k') :
    Reaches e l l' k' := by
  obtain ⟨n, hn, hrun⟩ := h
  exact ⟨n, by omega, hrun⟩

theorem Reaches.trans {e k k' : Nat} {l l1 l2 : Line} (h : Reaches e l l1 k)
    (h' : Reaches e l1 l2 k') : Reaches e l l2 (k + k') := by
  obtain ⟨n, hn, hrun⟩ := h
  obtain ⟨n', hn', hrun'⟩ := h'
  refine ⟨n' + n, by omega, fun fuel => ?_⟩
  rw [← Nat.add_assoc, hrun, hrun']

theorem Renders.two_le {w x : Bytes} (h : Renders w x) : 2 ≤ x.length := by
  cases h <;> simp

section Loop

variable {e lo : Nat} {text t : Bytes} (ht : text = t ++ [0])

include ht

theorem reaches_gap {g : Bytes} (hg : Gap g) :
    ∀ {l : Line} {ws : List Bytes}, At e lo l ws (g ++ text) → ws.length < maxTokens →
      ∃ l', Reaches e l l' g.length ∧ At e lo l' ws text := by
  have hpos : 1 ≤ text.length := by simp [ht]
  induction hg with
  | @blank b hb =>
    intro l ws h hc
    have hlt := h.lt (by simp; omega)
    exact ⟨_, .step hlt (tokStep_blank hb h hc) (.refl e _), At.skip (x := [b]) h⟩
  | @cont b hb =>
    intro l ws h hc
    have hlt := h.lt (by simp)
    have h1 := At.skip (x := [b]) h
    have hlt1 := h1.lt (by simp)
    exact ⟨_, (Reaches.step hlt (tokStep_blank hb h hc)
      (.step hlt1 (tokStep_cont h1 hc) (.refl e _))).mono (by simp),
      At.skip (x := [92, 10]) h1⟩
  | @consBlank b g hb _ ih =>
    intro l ws h hc
    have hlt := h.lt (by simp; omega)
    obtain ⟨l', hr, hat⟩ := ih (At.skip (x := [b]) h) hc
    exact ⟨l', .step hlt (tokStep_blank hb h hc) hr, hat⟩
  | @consCont b g hb _ ih =>
    intro l ws h hc
    have hlt := h.lt (by simp)
    have h1 := At.skip (x := [b]) h
    have hlt1 := h1.lt (by simp)
    obtain ⟨l', hr, hat⟩ := ih (At.skip (x := [92, 10]) h1) hc
    exact ⟨l', (Reaches.step hlt (tokStep_blank hb h hc)
      (.step hlt1 (tokStep_cont h1 hc) hr)).mono (by simp), hat⟩

/-- The token loop finds the arguments of a line. -/
theorem reaches_line {new : List Bytes} {x : Bytes} (hx : RendersLine new x) :
    ∀ {l : Line} {ws : List Bytes}, At e lo l ws (x ++ text) → (∀ w ∈ new, 0 ∉ w) →
      ws.length + new.length < maxTokens →
      ∃ l', Reaches e l l' x.length ∧ At e lo l' (ws ++ new) text := by
  have hpos : 1 ≤ text.length := by simp [ht]
  induction hx with
  | @one w x hx =>
    intro l ws h h0 hc
    have h2 := hx.two_le
    obtain ⟨l', hstep, hat⟩ :=
      tokStep_arg hx ht (h0 w List.mem_cons_self) h (by simp at hc; omega)
    exact ⟨l', (Reaches.step (h.lt (by simp; omega)) hstep (.refl e l')).mono (by omega), hat⟩
  | @cons w x g u new hx hg _ ih =>
    intro l ws h h0 hc
    have h2 := hx.two_le
    simp only [List.length_cons] at hc
    rw [List.append_assoc, List.append_assoc] at h
    obtain ⟨l1, hstep, hat1⟩ :=
      tokStep_arg hx (t := g ++ (u ++ t)) (by simp [ht]) (h0 w List.mem_cons_self) h (by omega)
    obtain ⟨l2, hr2, hat2⟩ := reaches_gap (t := u ++ t) (by simp [ht]) hg hat1 (by simp; omega)
    obtain ⟨l3, hr3, hat3⟩ :=
      ih hat2 (fun v hv => h0 v (List.mem_cons_of_mem w hv)) (by simp; omega)
    refine ⟨l3, ?_, by simpa using hat3⟩
    have hlt := h.lt (by simp; omega)
    exact ((Reaches.step hlt hstep hr2).trans hr3).mono (by simp; omega)

end Loop

/-- The text behind a line: its end, or the end of the spec. -/
def LineEnd (text : Bytes) : Prop := text = [0] ∨ ∃ t, text = 10 :: (t ++ [0])

theorem tokenize_spec {e : Nat} {a x text : Bytes} {args : List Bytes} (hx : RendersLine args x)
    (hend : LineEnd text) (h0 : ∀ w ∈ args, 0 ∉ w) (hc : args.length < maxTokens)
    (he : (a ++ (x ++ text)).length = e + 1) :
    ∃ l, tokenize e { m := a ++ (x ++ text), p := a.length } = .ok l ∧
      At e a.length l args text ∧ l.p = a.length + x.length := by
  obtain ⟨t, ht⟩ : ∃ t, text = t ++ [0] := by
    rcases hend with rfl | ⟨t, rfl⟩
    · exact ⟨[], rfl⟩
    · exact ⟨10 :: t, rfl⟩
  have hstart : At e a.length { m := a ++ (x ++ text), p := a.length } [] (x ++ text) :=
    ⟨⟨a, rfl, rfl⟩, he, Nat.le_refl _, rfl⟩
  obtain ⟨l, ⟨n, hn, hrun⟩, hat⟩ := reaches_line ht hx hstart h0 (by simpa using hc)
  rw [List.nil_append] at hat
  have hp : l.p = a.length + x.length := by
    obtain ⟨a', hm, hp⟩ := hat.mem
    have := hat.len
    rw [hm] at this
    simp only [List.length_append] at this he
    omega
  have hle : l.p ≤ e := by
    simp only [List.length_append, ht, List.length_cons, List.length_nil] at he
    omega
  -- the loop stops where the line ends
  have hstop : ∀ fuel, collect e (fuel + 1) l = .ok l := by
    intro fuel
    rcases hend with rfl | ⟨t, rfl⟩
    · have : ¬l.p < e := by
        simp only [List.length_append, List.length_cons, List.length_nil] at he
        omega
      rw [collect, if_neg this]
    · rw [collect, if_pos (hat.lt (by simp)), tokStep_newline hat hc]
      rfl
  refine ⟨l, ?_, hat, hp⟩
  have hfuel : e + 1 = (e - n) + 1 + n := by
    simp only [List.length_append] at he
    omega
  rw [tokenize, hfuel, hrun, hstop, ok_bind, hat.count, decide_eq_true hle, decide_eq_true hc]
  rfl

/-! ## Ending the tokens -/

variable {S : Type}

/-- An ended token is its argument, whatever happens to the bytes behind its NUL. -/
theorem cstr_ended {m m' w : Bytes} {a : Nat} (hw : Holds m a w) (h0 : 0 ∉ w)
    (hlt : a + w.length < m.length)
    (hm' : m'.take (a + w.length + 1) = (m.set (a + w.length) 0).take (a + w.length + 1)) :
    cstr m' a = w := by
  have hold : Holds (m.set (a + w.length) 0) a w := hw.set (.inr (Nat.le_refl _))
  rw [← List.take_append_drop (a + w.length + 1) (m.set (a + w.length) 0)] at hold
  refine cstr_of_holds ?_ (fun c hc h => h0 (h ▸ hc)) ?_
  · rw [← List.take_append_drop (a + w.length + 1) m', hm']
    exact hold.of_common (by simp; omega)
  · have hget : m'[a + w.length]? = (m.set (a + w.length) 0)[a + w.length]? := by
      have := congrArg (·[a + w.length]?) hm'
      simpa [List.getElem?_take] using this
    rw [List.getD_eq_getElem?_getD, hget, List.getElem?_set_self hlt]
    rfl

/-- When the tokens have been ended, each of them is its argument. Nothing outside of the line has
changed. -/
theorem endTokens_spec (env : Env S) (s : S) :
    ∀ (toks : List (Nat × Nat)) (ws : List Bytes) (m : Bytes) (lo hi : Nat),
      Placed m lo toks ws hi → (∀ w ∈ ws, 0 ∉ w ∧ hasMacro w = false) → hi ≤ m.length →
      ∃ m', endTokens env toks m s = .ok (m', some (toks.map fun t => .place t.1), s) ∧
        (toks.map fun t => (Arg.place t.1).read m') = ws ∧
        m'.take lo = m.take lo ∧ m'.drop hi = m.drop hi ∧ m'.length = m.length := by
  intro toks
  induction toks with
  | nil =>
    intro ws m lo hi h _ _
    cases ws with
    | nil => exact ⟨m, rfl, rfl, rfl, rfl, rfl⟩
    | cons w ws => exact h.elim
  | cons t toks ih =>
    intro ws m lo hi h hws hm
    cases ws with
    | nil => exact h.elim
    | cons w ws =>
      obtain ⟨a, b⟩ := t
      obtain ⟨hlo, hw, he, hrest⟩ := h
      subst he
      obtain ⟨h0, hmac⟩ := hws w List.mem_cons_self
      have hhi := hrest.le
      obtain ⟨m', hrun, hread, htake, hdrop, hlen⟩ :=
        ih ws (m.set (a + w.length) 0) (a + w.length + 1) hi
          (hrest.set (Nat.lt_succ_self _)) (fun v hv => hws v (List.mem_cons_of_mem w hv))
          (by simpa using hm)
      refine ⟨m', ?_, ?_, ?_, ?_, by simpa using hlen⟩
      · have hnow : cstr (m.set (a + w.length) 0) a = w := cstr_ended hw h0 (by omega) rfl
        rw [endTokens]
        simp only [hnow, hmac, Bool.false_eq_true, if_false, hrun]
        rfl
      · rw [List.map_cons, hread, Arg.read, cstr_ended hw h0 (by omega) htake]
      · have := congrArg (List.take lo) htake
        rwa [List.take_take, List.take_take, Nat.min_eq_left (by omega),
          List.take_set_of_le (by omega)] at this
      · rw [hdrop, List.drop_set_of_lt (by omega)]

/-! ## The script -/

/-- The command of a line is called. -/
def Env.call (env : Env S) (s : S) (args : List Bytes) : Run S S :=
  match env.lookup (args.headD []) with
  | none => .error (.fatal, s)
  | some c => c s args

/-- The lines are executed one after the other, and the test is neither stopped nor failed when a
line is come to. -/
def Running (env : Env S) : S → List (List Bytes) → Prop
  | _, [] => True
  | s, args :: ls => env.halted s = false ∧ ∀ s', env.call s args = .ok s' → Running env s' ls

/-- A line of a known command other than `loop`, whose arguments are strings without macros. -/
structure Plain (env : Env S) (args : List Bytes) : Prop where
  count : args.length < 199
  texts : ∀ w ∈ args, 0 ∉ w ∧ hasMacro w = false
  known : ∃ name rest, args = name :: rest ∧ name ≠ ascii "loop" ∧ (env.lookup name).isSome = true

theorem execute_plain {env : Env S} {args : List Bytes} (h : Plain env args)
    (nested : Bytes → S → Run S S) (s : S) : execute env nested args s = env.call s args := by
  obtain ⟨name, rest, rfl, hloop, hc⟩ := h.known
  obtain ⟨c, hc⟩ := Option.isSome_iff_exists.mp hc
  simp [execute, hloop, Env.call, hc]

theorem RendersLine.head {args : List Bytes} {x : Bytes} (h : RendersLine args x) :
    ∃ b x', x = b :: x' ∧ (b = 34 ∨ b = 123) := by
  cases h with
  | one h => cases h <;> exact ⟨_, _, rfl, by simp⟩
  | cons h => cases h <;> exact ⟨_, _, rfl, by simp⟩

/-- A turn of the outer loop at a line. -/
theorem parseLoop_line {env : Env S} (nested : Bytes → S → Run S S) {e fuel : Nat}
    {a x text : Bytes} {args : List Bytes} {s : S} (hx : RendersLine args x) (hend : LineEnd text)
    (hplain : Plain env args) (hs : env.halted s = false)
    (he : (a ++ (x ++ text)).length = e + 1) :
    ∃ a', a'.length = a.length + x.length ∧
      parseLoop env nested e (fuel + 1) (a ++ (x ++ text)) a.length s =
        env.call s args >>= parseLoop env nested e fuel (a' ++ text) (a'.length + 1) := by
  have hc : args.length < maxTokens := by
    have := hplain.count
    simp only [maxTokens]
    omega
  obtain ⟨l, htok, hat, hp⟩ := tokenize_spec hx hend (fun w hw => (hplain.texts w hw).1) hc he
  have hlen := hat.len
  have hl : l.p ≤ l.m.length := by
    obtain ⟨a1, hm, hp1⟩ := hat.mem
    rw [hm, hp1, List.length_append]
    omega
  obtain ⟨m', hend', hread, _, hdrop, hlen'⟩ :=
    endTokens_spec env s l.toks args l.m a.length l.p hat.placed hplain.texts hl
  have hmem : m' = m'.take l.p ++ text := by
    obtain ⟨a1, hm, hp1⟩ := hat.mem
    conv_lhs => rw [← List.take_append_drop l.p m', hdrop, hm, hp1, List.drop_left]
    rw [hp1]
  have htake : (m'.take l.p).length = l.p := by
    rw [List.length_take, hlen']
    omega
  refine ⟨m'.take l.p, by omega, ?_⟩
  obtain ⟨b, x', rfl, hb⟩ := hx.head
  have hlt : a.length < e := by
    have : 1 ≤ text.length := by
      rcases hend with rfl | ⟨t, rfl⟩ <;> simp
    simp only [List.length_append, List.length_cons] at he
    omega
  have hget : (a ++ (b :: x' ++ text)).getD a.length 0 = b := getD_mid b
  have hsp : isspace b = false ∧ b ≠ 10 ∧ b ≠ 35 := by
    rcases hb with rfl | rfl <;> simp [isspace]
  have hargs : (l.toks.map fun t => Arg.place t.1).map (Arg.read m') = args := by
    rw [List.map_map]
    exact hread
  rw [parseLoop, if_pos hlt, parseTurn, hs, if_neg Bool.false_ne_true, hget]
  simp only [hsp.1, Bool.false_eq_true, if_false, hsp.2.1, hsp.2.2, htok, lift, run_bind, hend',
    hargs, execute_plain hplain, ← hmem, htake, bind_assoc]
  rfl

/-- The outer loop executes the lines in order. -/
theorem parseLoop_spec {env : Env S} {nested : Bytes → S → Run S S} {e : Nat}
    {ls : List (List Bytes)} {x : Bytes} (hx : RendersScript ls x) :
    ∀ (fuel : Nat) (a : Bytes) (s : S), (∀ args ∈ ls, Plain env args) → Running env s ls →
      (a ++ (x ++ [0])).length = e + 1 → x.length < fuel →
      parseLoop env nested e fuel (a ++ (x ++ [0])) a.length s = ls.foldlM env.call s := by
  induction hx with
  | nil =>
    intro fuel a s _ _ he hf
    obtain ⟨fuel, rfl⟩ : ∃ f, fuel = f + 1 := ⟨fuel - 1, by omega⟩
    have : ¬a.length < e := by
      simp only [List.length_append, List.length_cons, List.length_nil] at he
      omega
    rw [parseLoop, if_neg this]
    rfl
  | @last args x hx =>
    intro fuel a s hplain hrun he hf
    obtain ⟨fuel, rfl⟩ : ∃ f, fuel = f + 1 := ⟨fuel - 1, by omega⟩
    obtain ⟨a', ha', hline⟩ :=
      parseLoop_line nested hx (.inl rfl) (hplain args List.mem_cons_self) hrun.1 he
    rw [hline, List.foldlM_cons]
    refine congrArg (env.call s args >>= ·) (funext fun s' => ?_)
    obtain ⟨b, x', rfl, _⟩ := hx.head
    obtain ⟨fuel, rfl⟩ : ∃ f, fuel = f + 1 := ⟨fuel - 1, by simp at hf; omega⟩
    have : ¬a'.length + 1 < e := by
      simp only [List.length_append, List.length_cons, List.length_nil] at he ha'
      omega
    rw [parseLoop, if_neg this]
    rfl
  | @cons args x u ls hx _ ih =>
    intro fuel a s hplain hrun he hf
    obtain ⟨fuel, rfl⟩ : ∃ f, fuel = f + 1 := ⟨fuel - 1, by omega⟩
    have htext : x ++ 10 :: u ++ [0] = x ++ (10 :: (u ++ [0])) := by simp
    rw [htext] at he ⊢
    obtain ⟨a', ha', hline⟩ :=
      parseLoop_line nested hx (.inr ⟨u, rfl⟩) (hplain args List.mem_cons_self) hrun.1 he
    rw [hline, List.foldlM_cons]
    cases hcall : env.call s args with
    | error t => rfl
    | ok s' =>
      have hmem : a' ++ 10 :: (u ++ [0]) = (a' ++ [10]) ++ (u ++ [0]) := by simp
      have hp : a'.length + 1 = (a' ++ [10]).length := by simp
      rw [run_bind, run_bind, hmem, hp]
      refine ih fuel (a' ++ [10]) s' (fun v hv => hplain v (List.mem_cons_of_mem args hv))
        (hrun.2 s' hcall) ?_ ?_
      · simp only [List.length_append, List.length_cons, List.length_nil] at he ⊢
        omega
      · simp only [List.length_append, List.length_cons] at hf
        omega

/-- A script that is written down from command lines calls the commands in order, each once, with
exactly those arguments. -/
theorem script_parses_back {env : Env S} {ls : List (List Bytes)} {spec : Bytes}
    (hspec : RendersScript ls spec) (hplain : ∀ args ∈ ls, Plain env args) (s : S)
    (hrun : Running env s ls) (depth : Nat) :
    parseString env (depth + 1) spec s = ls.foldlM env.call s := by
  rw [parseString]
  exact parseLoop_spec hspec (spec.length + 1) [] s hplain hrun (by simp) (by omega)

/-- An environment with one command, which logs its arguments. -/
def logEnv : Env (List (List Bytes)) :=
  { halted := fun _ => false
    failed := fun _ => false
    macroExpand := fun s t => .ok (t, s)
    cmds := none
    findCmd := fun name =>
      if name = [99] then some (fun s args => .ok (s ++ [args]), true) else none }

theorem script_parses_back_log :
    parseString logEnv 1 ([34, 99, 34] ++ ([32] ++ [34, 92, 110, 34]) ++ 10 :: [123, 99, 125]) [] =
      .ok [[[99], [10]], [[99]]] := by
  have hbal : Balanced [99] := by
    refine ⟨fun k => ?_, rfl⟩
    cases k <;> simp
  have hspec : RendersScript [[[99], [10]], [[99]]]
      ([34, 99, 34] ++ ([32] ++ [34, 92, 110, 34]) ++ 10 :: [123, 99, 125]) :=
    .cons (.cons (.quote [99]) (.blank ⟨rfl, by simp⟩) (.one (.quote [10])))
      (.last (.one (.brace hbal)))
  have hplain : ∀ args ∈ [[[99], [10]], [[99]]], Plain logEnv args := by
    intro args hargs
    simp only [List.mem_cons, List.not_mem_nil, or_false] at hargs
    rcases hargs with rfl | rfl
    · exact ⟨by simp, by simp [hasMacro], [99], _, rfl, by simp [ascii], rfl⟩
    · exact ⟨by simp, by simp [hasMacro], [99], _, rfl, by simp [ascii], rfl⟩
  have hrun : ∀ (ls : List (List Bytes)) (s : List (List Bytes)), Running logEnv s ls := by
    intro ls
    induction ls with
    | nil => intro s; trivial
    | cons args ls ih => intro s; exact ⟨rfl, fun s' _ => ih s'⟩
  exact script_parses_back hspec hplain [] (hrun _ []) 0

end Script
end VTest
