import VTest.Script.Faithful

/-!
# VTest.Script.Malformed

What becomes of quoted tokens that are malformed: those that are not closed, and those with an
escape that `VAV_BackSlash` rejects.

* `tokStep_keeps`, `parseTurn_keeps`: the part of the copy that is still to be read is never
  touched, and every turn moves on.
* `OnLine.collect`, `Comes.parseLoop`: the loops go on from the states they come to.
-/

namespace VTest
namespace Script

variable {S : Type}

/-! ## What is still to be read -/

/-- The copy is as long as the spec with its NUL, and from `p` on it is the spec. -/
structure Unread (spec m : Bytes) (p : Nat) : Prop where
  len : m.length = spec.length + 1
  same : m.drop p = (spec ++ [0]).drop p

theorem Unread.mono {spec m : Bytes} {p q : Nat} (h : Unread spec m p) (hq : p ≤ q) :
    Unread spec m q := by
  refine ⟨h.len, ?_⟩
  have := congrArg (List.drop (q - p)) h.same
  rwa [List.drop_drop, List.drop_drop, Nat.add_sub_cancel' hq] at this

/-- The copy, cut at a byte that is still to be read. -/
theorem Unread.cut {spec m : Bytes} {p : Nat} (h : Unread spec m p) (hp : p < spec.length) :
    ∃ a, m = a ++ m.getD p 0 :: (spec.drop (p + 1) ++ [0]) ∧ a.length = p := by
  have hdrop : m.drop p = spec.getD p 0 :: (spec.drop (p + 1) ++ [0]) := by
    rw [h.same, List.drop_append_of_le_length (by omega), List.drop_eq_getElem_cons hp,
      List.getD_eq_getElem _ _ hp, List.cons_append]
  have hm : m = m.take p ++ spec.getD p 0 :: (spec.drop (p + 1) ++ [0]) := by
    rw [← hdrop, List.take_append_drop]
  have hlen : (m.take p).length = p := by
    rw [List.length_take, h.len]
    omega
  have hget : m.getD p 0 = spec.getD p 0 := by
    have := congrArg (·[0]?) hdrop
    rw [List.getElem?_drop] at this
    rw [List.getD_eq_getElem?_getD, show m[p]? = some (spec.getD p 0) from this]
    rfl
  exact ⟨m.take p, by rw [hget]; exact hm, hlen⟩

/-- A copy that ends as the spec does. -/
theorem Unread.of_common {spec a x r : Bytes} (h : spec ++ [0] = x ++ r)
    (hlen : (a ++ r).length = spec.length + 1) : Unread spec (a ++ r) a.length := by
  refine ⟨hlen, ?_⟩
  have hx : x.length = a.length := by
    have := congrArg List.length h
    simp only [List.length_append, List.length_cons, List.length_nil] at this hlen
    omega
  rw [List.drop_left, h, ← hx, List.drop_left]

theorem Pieces.rest {t w r : Bytes} (h : Pieces t w r) : ∃ x, t = x ++ r := by
  induction h with
  | nil => exact ⟨[], rfl⟩
  | @cons t w r n c _ _ ih =>
    obtain ⟨x, hx⟩ := ih
    exact ⟨t.take n ++ x, by rw [List.append_assoc, ← hx, List.take_append_drop]⟩

/-! ## Three kinds of quoted tokens -/

/-- The text behind the opening quote comes to a closing one. -/
def Closed (text : Bytes) : Prop := ∃ w r, Pieces text w (34 :: r)

/-- It comes to the end of the line or of the spec. -/
def Unclosed (text : Bytes) : Prop := ∃ w r, Pieces text w r ∧ (r = [0] ∨ r.head? = some 10)

/-- It comes to a backslash that `VAV_BackSlash` rejects. -/
def Rejected (text : Bytes) : Prop := ∃ w r, Pieces text w (92 :: r) ∧ piece (92 :: r) = none

/-- It comes to a backslash that is the last byte of the spec. -/
def Lone (text : Bytes) : Prop := ∃ w, Pieces text w [92, 0]

theorem closed_or (t : Bytes) (h0 : 0 ∉ t) :
    Closed (t ++ [0]) ∨ Unclosed (t ++ [0]) ∨ Rejected (t ++ [0]) := by
  induction hn : t.length using Nat.strong_induction_on generalizing t with
  | _ k ih =>
    cases hp : piece (t ++ [0]) with
    | some nc =>
      obtain ⟨n, c⟩ := nc
      obtain ⟨hpos, hle⟩ := piece_le hp
      have hdrop : (t ++ [0]).drop n = t.drop n ++ [0] := List.drop_append_of_le_length hle
      rcases ih (t.drop n).length (by simp; omega) (t.drop n)
          (fun h => h0 (List.mem_of_mem_drop h)) rfl with
        ⟨w, r, h⟩ | ⟨w, r, h, hr⟩ | ⟨w, r, h, hr⟩
      · exact .inl ⟨c :: w, r, .cons hp (hdrop ▸ h)⟩
      · exact .inr (.inl ⟨c :: w, r, .cons hp (hdrop ▸ h), hr⟩)
      · exact .inr (.inr ⟨c :: w, r, .cons hp (hdrop ▸ h), hr⟩)
    | none =>
      cases t with
      | nil => exact .inr (.inl ⟨[], [0], .nil, .inl rfl⟩)
      | cons b t =>
        simp only [List.mem_cons, not_or] at h0
        rw [List.cons_append] at hp ⊢
        by_cases h34 : b = 34
        · subst h34; exact .inl ⟨[], t ++ [0], .nil⟩
        by_cases h10 : b = 10
        · subst h10; exact .inr (.inl ⟨[], _, .nil, .inr rfl⟩)
        by_cases h92 : b = 92
        · subst h92; exact .inr (.inr ⟨[], t ++ [0], .nil, hp⟩)
        · rw [piece_plain _ (Ne.symm h0.1) h34 h10 h92] at hp
          cases hp

/-- A text has its pieces in one way only. -/
theorem Pieces.unique {t w w' r r' : Bytes} (h : Pieces t w r) (h' : Pieces t w' r')
    (hr : piece r = none) (hr' : piece r' = none) : r = r' := by
  induction h generalizing w' with
  | nil =>
    cases h' with
    | nil => rfl
    | cons hp _ => rw [hr] at hp; cases hp
  | cons hp _ ih =>
    cases h' with
    | nil => rw [hr'] at hp; cases hp
    | cons hp' hrest' =>
      cases hp.symm.trans hp'
      exact ih hrest' hr

theorem Unclosed.not_closed {t : Bytes} (h : Unclosed t) : ¬Closed t := by
  rintro ⟨w', r', h'⟩
  obtain ⟨w, r, h, hr⟩ := h
  rcases hr with rfl | hr
  · cases h.unique h' rfl rfl
  · cases r with
    | nil => cases hr
    | cons c r =>
      cases hr
      cases h.unique h' rfl rfl

theorem Unclosed.not_rejected {t : Bytes} (h : Unclosed t) : ¬Rejected t := by
  rintro ⟨w', r', h', hp⟩
  obtain ⟨w, r, h, hr⟩ := h
  rcases hr with rfl | hr
  · cases h.unique h' rfl hp
  · cases r with
    | nil => cases hr
    | cons c r =>
      cases hr
      cases h.unique h' rfl hp

/-! ## The loop over a quoted token -/

/-- The loop ends behind `p`, in front of the end of the spec, and what follows is untouched. -/
def GoesOn (spec : Bytes) (p : Nat) (res : Res (Bytes × Nat × Nat)) : Prop :=
  ∃ m' p' q', res = .ok (m', p', q') ∧ p < p' ∧ p' < spec.length ∧ q' ≤ p' + 1 ∧
    Unread spec m' (p' + 1)

/-- The loop has reported a failure, or has come to the end of the spec. -/
def Fails (spec : Bytes) (res : Res (Bytes × Nat × Nat)) : Prop :=
  res = .error .fatal ∨
    ∃ m' q', res = .ok (m', spec.length, q') ∧ m'.length = spec.length + 1 ∧ q' ≤ spec.length

/-- A byte other than the NUL is in front of the end of the spec. -/
theorem lt_of_ne_zero {spec b x r : Bytes} {c : UInt8} (hx : spec ++ [0] = x ++ c :: r)
    (hc : c ≠ 0) (hlen : (b ++ c :: r).length = spec.length + 1) : b.length < spec.length := by
  have hr : r ≠ [] := by
    rintro rfl
    have := (List.append_inj' hx rfl).2
    exact hc (List.cons.inj this).1.symm
  have := List.length_pos_iff.mpr hr
  simp only [List.length_append, List.length_cons] at hlen
  omega

/-- The loop ends at such a byte. -/
theorem goesOn_of {spec b x r : Bytes} {c c' : UInt8} {p q : Nat} (hx : spec ++ [0] = x ++ c :: r)
    (hc : c ≠ 0) (hlen : (b ++ c :: r).length = spec.length + 1) (hp : p < b.length)
    (hq : q ≤ b.length + 1) : GoesOn spec p (.ok (b ++ c' :: r, b.length, q)) := by
  refine ⟨_, _, q, rfl, hp, lt_of_ne_zero hx hc hlen, hq, ?_⟩
  have hun : Unread spec (b ++ [c'] ++ r) (b ++ [c']).length :=
    Unread.of_common (x := x ++ [c]) (by simp [hx]) (by simpa using hlen)
  simpa using hun

section Outcome

variable {spec a t : Bytes} (hspec : ∃ x, spec ++ [0] = x ++ (t ++ [0]))
  (hlen : (a ++ [34] ++ (t ++ [0])).length = spec.length + 1)

include hspec hlen

/-- The pieces are decoded, and the loop comes to what follows them. -/
theorem quote_pieces {w r : Bytes} (h : Pieces (t ++ [0]) w r) :
    ∃ junk k, quoteAt spec.length (quoteFuel spec.length) (a ++ [34]) [] (t ++ [0]) =
        quoteAt spec.length (k + 2 + junk.length) (a ++ [34] ++ w) junk r ∧
      (a ++ [34] ++ w ++ junk ++ r).length = spec.length + 1 ∧
      ∃ x, spec ++ [0] = x ++ r := by
  obtain ⟨x0, hx0⟩ := hspec
  obtain ⟨x, hx⟩ := h.rest
  obtain ⟨junk, t', hr, hrun, hlen'⟩ :=
    quoteAt_pieces (e := spec.length) h (2 * spec.length + 4 - w.length) (a ++ [34]) [] t rfl
      (by simpa using hlen)
  have hk : w.length + junk.length ≤ spec.length := by
    rw [hr] at hlen'
    simp only [List.length_append, List.length_cons, List.length_nil] at hlen'
    omega
  refine ⟨junk, 2 * spec.length + 2 - w.length - junk.length, ?_, hlen', x0 ++ x,
    by rw [hx0, hx, List.append_assoc]⟩
  have hfuel : quoteFuel spec.length = 2 * spec.length + 4 - w.length + w.length := by
    rw [quoteFuel]
    omega
  have hrest : 2 * spec.length + 2 - w.length - junk.length + 2 + junk.length =
      2 * spec.length + 4 - w.length := by
    omega
  rw [hfuel, hrun, hrest]

theorem quote_closed (h : Closed (t ++ [0])) : GoesOn spec a.length
    (quoteAt spec.length (quoteFuel spec.length) (a ++ [34]) [] (t ++ [0])) := by
  obtain ⟨w, r, h⟩ := h
  obtain ⟨junk, k, hrun, hlen', x, hx⟩ := quote_pieces hspec hlen h
  have hc : (34 : UInt8) ≠ 0 := by simp
  have hfuel : k + 2 + junk.length = k + 1 + junk.length + 1 := by omega
  rw [hrun, hfuel, quoteAt_closed _ (lt_of_ne_zero hx hc hlen')]
  refine goesOn_of hx hc hlen' ?_ ?_
  · simp only [List.length_append, List.length_cons]
    omega
  · simp only [List.length_append]
    omega

theorem quote_unclosed (h : Unclosed (t ++ [0])) : Fails spec
    (quoteAt spec.length (quoteFuel spec.length) (a ++ [34]) [] (t ++ [0])) := by
  obtain ⟨w, r, h, hr⟩ := h
  obtain ⟨junk, k, hrun, hlen', x, hx⟩ := quote_pieces hspec hlen h
  have hfuel : k + 2 + junk.length = k + 1 + junk.length + 1 := by omega
  rw [hrun, hfuel]
  rcases hr with rfl | hr
  · rw [quoteAt_end]
    have he : (a ++ [34] ++ w ++ junk).length = spec.length := by
      rw [List.length_append] at hlen'
      exact Nat.succ_inj.mp hlen'
    refine .inr ⟨a ++ [34] ++ w ++ junk ++ [0], (a ++ [34] ++ w).length, by rw [he], hlen', ?_⟩
    simp only [List.length_append] at he ⊢
    omega
  · cases r with
    | nil => cases hr
    | cons c r =>
      cases hr
      rw [quoteAt_newline _ (lt_of_ne_zero hx (by simp) hlen')]
      exact .inl rfl

omit hspec in
/-- At a backslash that is the last byte, the loop never ends. -/
theorem quote_lone (h : Lone (t ++ [0])) (fuel : Nat) :
    quoteAt spec.length fuel (a ++ [34]) [] (t ++ [0]) = .error .fuel := by
  obtain ⟨w, h⟩ := h
  exact quoteAt_lone h rfl fuel (a ++ [34]) [] t rfl (by simpa using hlen)

/-- A rejected escape: the loop goes on behind the backslash, or the backslash is the last byte. -/
theorem quote_rejected (h0 : 0 ∉ spec) (h : Rejected (t ++ [0])) :
    GoesOn spec a.length
      (quoteAt spec.length (quoteFuel spec.length) (a ++ [34]) [] (t ++ [0])) ∨
    Lone (t ++ [0]) := by
  obtain ⟨w, r, h, hr⟩ := h
  obtain ⟨junk, k, hrun, hlen', x, hx⟩ := quote_pieces hspec hlen h
  have hc : (92 : UInt8) ≠ 0 := by simp
  have hlt := lt_of_ne_zero hx hc hlen'
  rw [piece_escape] at hr
  by_cases h2 : 2 ≤ ((92 :: r).takeWhile (· ≠ 0)).length
  · left
    rw [hrun]
    have hlen2 : (a ++ [34] ++ w ++ junk).length =
        (a ++ [34] ++ w ++ List.replicate junk.length 0).length := by
      simp only [List.length_append, List.length_replicate]
    rw [quoteAt_rejected hr h2 k junk (a ++ [34] ++ w) hlt, hlen2]
    refine goesOn_of hx hc ?_ ?_ (Nat.le_refl _)
    · rw [List.length_append, ← hlen2, ← List.length_append]
      exact hlen'
    · simp only [List.length_append, List.length_cons]
      omega
  · right
    have hr0 : r = [0] := by
      -- behind the backslash there is only the NUL
      obtain ⟨r', c, rfl⟩ : ∃ r' c, r = r' ++ [c] := by
        refine ⟨r.dropLast, r.getLast ?_, (List.dropLast_append_getLast _).symm⟩
        rintro rfl
        have := List.append_inj' hx rfl
        exact hc (List.cons.inj this.2).1.symm
      have hcut : spec = x ++ 92 :: r' ∧ [0] = [c] :=
        List.append_inj' (hx.trans (by simp)) rfl
      cases hcut.2
      cases r' with
      | nil => rfl
      | cons b r' =>
        have hb : b ≠ 0 := by
          rintro rfl
          exact h0 (hcut.1 ▸ by simp)
        rw [List.takeWhile_cons_of_pos (by simp), List.cons_append,
          List.takeWhile_cons_of_pos (by simpa using hb)] at h2
        exact absurd (by simp) h2
    subst hr0
    exact ⟨w, h⟩

end Outcome

/-! ## Turns -/

/-- What the loops keep: the rest is untouched, and the tokens end in front of it. -/
structure Keeps (spec : Bytes) (l : Line) : Prop where
  unread : Unread spec l.m l.p
  ends : ∀ t ∈ l.toks, t.2 ≤ l.p

/-- The quoted token at a quote. -/
def quoteTok (spec : Bytes) (l : Line) : Res (Bytes × Nat × Nat) :=
  quoteLoop spec.length (quoteFuel spec.length) l.m (l.p + 1) (l.p + 1)

theorem tokStep_quote_eq (spec : Bytes) {l : Line} (hc : l.m.getD l.p 0 = 34)
    (hn : l.toks.length < maxTokens) :
    tokStep spec.length l = quoteTok spec l >>= fun x =>
      .ok (some { m := x.1, p := x.2.1 + 1, toks := l.toks ++ [(l.p + 1, x.2.2)] }) := by
  rw [tokStep, decide_eq_true hn, check_true, ok_bind, hc]
  rfl

section Quote

variable {spec : Bytes} {l : Line} (h : Unread spec l.m l.p) (hp : l.p < spec.length)
  (hc : l.m.getD l.p 0 = 34)

include h hp hc

/-- The loop over the token at a quote, with the text behind the quote. -/
theorem quoteTok_eq : ∃ a, a.length = l.p ∧
    (∃ x, spec ++ [0] = x ++ (spec.drop (l.p + 1) ++ [0])) ∧
    (a ++ [34] ++ (spec.drop (l.p + 1) ++ [0])).length = spec.length + 1 ∧
    quoteTok spec l =
      quoteAt spec.length (quoteFuel spec.length) (a ++ [34]) [] (spec.drop (l.p + 1) ++ [0]) := by
  obtain ⟨a, hm, ha⟩ := h.cut hp
  rw [hc] at hm
  have hm' : l.m = a ++ [34] ++ [] ++ (spec.drop (l.p + 1) ++ [0]) := by
    rw [hm]
    simp
  have hlen := h.len
  rw [hm', List.append_nil] at hlen
  refine ⟨a, ha, ⟨spec.take (l.p + 1), ?_⟩, hlen, ?_⟩
  · rw [← List.append_assoc, List.take_append_drop]
  · rw [quoteTok, quoteAt, ← hm']
    simp [ha]

theorem quoteTok_outcome (h0 : 0 ∉ spec) :
    (Closed (spec.drop (l.p + 1) ++ [0]) ∧ GoesOn spec l.p (quoteTok spec l)) ∨
    (Unclosed (spec.drop (l.p + 1) ++ [0]) ∧ Fails spec (quoteTok spec l)) ∨
    (Rejected (spec.drop (l.p + 1) ++ [0]) ∧
      (GoesOn spec l.p (quoteTok spec l) ∨
        Lone (spec.drop (l.p + 1) ++ [0]) ∧ quoteTok spec l = .error .fuel)) := by
  obtain ⟨a, ha, hspec, hlen, heq⟩ := quoteTok_eq h hp hc
  rw [heq, ← ha] at *
  rcases closed_or (spec.drop (a.length + 1)) (fun hm => h0 (List.mem_of_mem_drop hm)) with
    hk | hk | hk
  · exact .inl ⟨hk, quote_closed hspec hlen hk⟩
  · exact .inr (.inl ⟨hk, quote_unclosed hspec hlen hk⟩)
  · refine .inr (.inr ⟨hk, (quote_rejected hspec hlen h0 hk).imp_right fun hl => ⟨hl, ?_⟩⟩)
    exact quote_lone hlen hl _

end Quote

/-- A turn at a quoted token that comes to an end. -/
theorem quoteTok_keeps {spec : Bytes} {l : Line} (h : Keeps spec l) (hp : l.p < spec.length)
    (hc : l.m.getD l.p 0 = 34) (h0 : 0 ∉ spec) {m : Bytes} {p q : Nat}
    (hq : quoteTok spec l = .ok (m, p, q)) :
    l.p < p ∧ q ≤ p + 1 ∧ Unread spec m (p + 1) := by
  have hgo : GoesOn spec l.p (quoteTok spec l) → l.p < p ∧ q ≤ p + 1 ∧ Unread spec m (p + 1) := by
    rintro ⟨m', p', q', hok, hlt, _, hle, hun⟩
    cases hq.symm.trans hok
    exact ⟨hlt, hle, hun⟩
  rcases quoteTok_outcome h.unread hp hc h0 with ⟨_, hg⟩ | ⟨_, hf⟩ | ⟨_, hg⟩
  · exact hgo hg
  · rcases hf with hf | ⟨m', q', hok, hlen, hle⟩
    · cases hq.symm.trans hf
    · cases hq.symm.trans hok
      refine ⟨hp, by omega, hlen, ?_⟩
      rw [List.drop_eq_nil_of_le (by omega), List.drop_eq_nil_of_le (by simp)]
  · rcases hg with hg | ⟨_, hg⟩
    · exact hgo hg
    · cases hq.symm.trans hg

/-- A new token ends in front of what is still to be read. -/
theorem Keeps.snoc {spec : Bytes} {l : Line} (h : Keeps spec l) {m : Bytes} {p s e : Nat}
    (hm : Unread spec m p) (hp : l.p ≤ p) (he : e ≤ p) :
    Keeps spec { m := m, p := p, toks := l.toks ++ [(s, e)] } := by
  refine ⟨hm, fun t ht => ?_⟩
  rcases List.mem_append.mp ht with ht | ht
  · exact Nat.le_trans (h.ends t ht) hp
  · cases List.mem_singleton.mp ht
    exact he

theorem Keeps.skip {spec : Bytes} {l : Line} (h : Keeps spec l) (k : Nat) :
    Keeps spec { l with p := l.p + k } :=
  ⟨h.unread.mono (Nat.le_add_right _ _),
    fun t ht => Nat.le_trans (h.ends t ht) (Nat.le_add_right _ _)⟩

theorem takeWhile_pos {m : Bytes} {e p : Nat} {f : UInt8 → Bool} (hp : p < e) (he : e ≤ m.length)
    (hf : f (m.getD p 0) = true) : 0 < (((m.take e).drop p).takeWhile f).length := by
  have hlt : p < (m.take e).length := by
    rw [List.length_take]
    omega
  have hget : (m.take e)[p] = m.getD p 0 := by
    rw [List.getElem_take, List.getD_eq_getElem _ _ (by omega)]
  rw [List.drop_eq_getElem_cons hlt, hget, List.takeWhile_cons_of_pos hf]
  simp

/-- Every turn of the token loop moves on, and leaves what is in front of it as it is. -/
theorem tokStep_keeps {spec : Bytes} {l l' : Line} (h : Keeps spec l) (hp : l.p < spec.length)
    (h0 : 0 ∉ spec) (hs : tokStep spec.length l = .ok (some l')) : l.p < l'.p ∧ Keeps spec l' := by
  obtain ⟨hn, hs'⟩ := check_bind_eq_ok.mp hs
  dsimp only at hs'
  split at hs'
  · cases hs'
  split at hs'
  · cases hs'
    exact ⟨Nat.lt_succ_self _, h.skip 1⟩
  split at hs'
  · cases hs'
    exact ⟨by show l.p < l.p + 2; omega, h.skip 2⟩
  split at hs'
  · rename_i hc
    obtain ⟨x, hq, hx⟩ := bind_eq_ok.mp hs'
    obtain ⟨m, p, q⟩ := x
    cases hx
    obtain ⟨hlt, hle, hun⟩ := quoteTok_keeps h hp hc h0 hq
    dsimp only
    exact ⟨by omega, h.snoc hun (by omega) hle⟩
  split at hs'
  · obtain ⟨_, hx⟩ := check_bind_eq_ok.mp hs'
    cases hx
    exact ⟨by show l.p < _ + 1; omega, h.snoc (h.unread.mono (by omega)) (by omega) (by omega)⟩
  · rename_i hsp _ _ _
    cases hs'
    have hpos : 0 < (((l.m.take spec.length).drop l.p).takeWhile (!isspace ·)).length :=
      takeWhile_pos hp (by have := h.unread.len; omega) (by simpa using hsp)
    exact ⟨by dsimp only; omega, h.snoc (h.unread.mono (by omega)) (by omega) (Nat.le_refl _)⟩

/-! ## The loops -/

/-- The token loop, started at a line, comes to this state. -/
inductive OnLine (e : Nat) (start : Line) : Line → Prop where
  | start : OnLine e start start
  | turn {l l' : Line} (h : OnLine e start l) (hp : l.p < e) (hs : tokStep e l = .ok (some l')) :
      OnLine e start l'

theorem OnLine.keeps {spec : Bytes} {start l : Line} (h : OnLine spec.length start l)
    (h0 : 0 ∉ spec) (hk : Keeps spec start) : start.p ≤ l.p ∧ Keeps spec l := by
  induction h with
  | start => exact ⟨Nat.le_refl _, hk⟩
  | turn _ hp hs ih =>
    obtain ⟨hlt, hk'⟩ := tokStep_keeps ih.2 hp h0 hs
    exact ⟨by omega, hk'⟩

/-- From there on, the loop is the loop from that state. -/
theorem OnLine.collect {spec : Bytes} {start l : Line} (h : OnLine spec.length start l)
    (h0 : 0 ∉ spec) (hk : Keeps spec start) :
    ∃ n, n + start.p ≤ l.p ∧
      ∀ fuel, collect spec.length (fuel + n) start = collect spec.length fuel l := by
  induction h with
  | start => exact ⟨0, by omega, fun _ => rfl⟩
  | @turn l l' h hp hs ih =>
    obtain ⟨n, hn, hrun⟩ := ih
    have hlt := (tokStep_keeps (h.keeps h0 hk).2 hp h0 hs).1
    refine ⟨n + 1, by omega, fun fuel => ?_⟩
    have hfuel : fuel + (n + 1) = fuel + 1 + n := by omega
    rw [hfuel, hrun, Script.collect, if_pos hp, hs]
    rfl

/-- The outer loop comes from one place to the other. -/
inductive Comes (env : Env S) (nested : Bytes → S → Run S S) (e : Nat) (m0 : Bytes) (p0 : Nat)
    (s0 : S) : Bytes → Nat → S → Prop where
  | start : Comes env nested e m0 p0 s0 m0 p0 s0
  | turn {m m' : Bytes} {p p' : Nat} {s s' : S} (h : Comes env nested e m0 p0 s0 m p s)
      (hp : p < e) (hs : parseTurn env nested e m p s = .ok (.next m' p' s')) :
      Comes env nested e m0 p0 s0 m' p' s'

theorem endTokens_unread {env : Env S} {spec : Bytes} {p : Nat} :
    ∀ (toks : List (Nat × Nat)) (m m' : Bytes) (args : Option (List Arg)) (s s' : S),
      endTokens env toks m s = .ok (m', args, s') → (∀ t ∈ toks, t.2 ≤ p) →
      Unread spec m (p + 1) → Unread spec m' (p + 1) := by
  intro toks
  induction toks with
  | nil =>
    intro m m' args s s' h _ hm
    cases h
    exact hm
  | cons t toks ih =>
    intro m m' args s s' h ht hm
    obtain ⟨a, b⟩ := t
    have hset : Unread spec (m.set b 0) (p + 1) := by
      have hb : b ≤ p := ht (a, b) List.mem_cons_self
      refine ⟨by simpa using hm.len, ?_⟩
      rw [List.drop_set_of_lt (by omega)]
      exact hm.same
    have hrest : ∀ t ∈ toks, t.2 ≤ p := fun x hx => ht x (List.mem_cons_of_mem _ hx)
    rw [endTokens] at h
    dsimp only at h
    split at h
    · obtain ⟨⟨x, s1⟩, _, h⟩ := run_bind_eq_ok.mp h
      dsimp only at h
      split at h
      · cases h
        exact hset
      · obtain ⟨⟨m1, args1, s2⟩, hrun, h⟩ := run_bind_eq_ok.mp h
        cases h
        exact ih _ _ _ _ _ hrun hrest hset
    · obtain ⟨⟨m1, args1, s2⟩, hrun, h⟩ := run_bind_eq_ok.mp h
      cases h
      exact ih _ _ _ _ _ hrun hrest hset

theorem collect_keeps {spec : Bytes} (h0 : 0 ∉ spec) :
    ∀ (fuel : Nat) (l l' : Line), Keeps spec l → collect spec.length fuel l = .ok l' →
      l.p ≤ l'.p ∧ Keeps spec l' := by
  intro fuel
  induction fuel with
  | zero => intro l l' _ h; cases h
  | succ fuel ih =>
    intro l l' hk h
    rw [collect] at h
    split at h
    · rename_i hp
      obtain ⟨x, hs, h⟩ := bind_eq_ok.mp h
      cases x with
      | none =>
        cases h
        exact ⟨Nat.le_refl _, hk⟩
      | some l1 =>
        obtain ⟨hlt, hk1⟩ := tokStep_keeps hk hp h0 hs
        obtain ⟨hle, hk2⟩ := ih l1 l' hk1 h
        exact ⟨by omega, hk2⟩
    · cases h
      exact ⟨Nat.le_refl _, hk⟩

/-- Every turn of the outer loop moves on, and leaves what is in front of it as it is. -/
theorem parseTurn_keeps {env : Env S} {nested : Bytes → S → Run S S} {spec m m' : Bytes}
    {p p' : Nat} {s s' : S} (h : Unread spec m p) (h0 : 0 ∉ spec)
    (hs : parseTurn env nested spec.length m p s = .ok (.next m' p' s')) :
    p < p' ∧ Unread spec m' p' := by
  unfold parseTurn at hs
  dsimp only at hs
  split at hs
  · cases hs
  split at hs
  · cases hs
    exact ⟨Nat.lt_succ_self p, h.mono (Nat.le_succ p)⟩
  split at hs
  · cases hs
    exact ⟨Nat.lt_succ_self p, h.mono (Nat.le_succ p)⟩
  split at hs
  · split at hs
    · cases hs
    · cases hs
      exact ⟨by omega, h.mono (by omega)⟩
  · obtain ⟨l, hl, hs⟩ := run_bind_eq_ok.mp hs
    obtain ⟨⟨m1, args, s1⟩, hend, hs⟩ := run_bind_eq_ok.mp hs
    obtain ⟨l1, hcol, hl⟩ := bind_eq_ok.mp (lift_eq_ok.mp hl)
    obtain ⟨_, hl⟩ := check_bind_eq_ok.mp hl
    obtain ⟨_, hl⟩ := check_bind_eq_ok.mp hl
    cases hl
    obtain ⟨hle, hk⟩ := collect_keeps h0 _ _ _ ⟨h, by simp⟩ hcol
    have hun := endTokens_unread _ _ _ _ _ _ hend hk.ends (hk.unread.mono (Nat.le_succ _))
    dsimp only at hs hle
    cases args with
    | none => cases hs
    | some args =>
      obtain ⟨s2, _, hs⟩ := run_bind_eq_ok.mp hs
      cases hs
      exact ⟨by omega, hun⟩

section Outer

variable {env : Env S} {nested : Bytes → S → Run S S} {spec m : Bytes} {p : Nat} {s s' : S}

theorem Comes.keeps (h : Comes env nested spec.length (spec ++ [0]) 0 s m p s') (h0 : 0 ∉ spec) :
    Unread spec m p := by
  induction h with
  | start => exact ⟨by simp, rfl⟩
  | turn _ _ hs ih => exact (parseTurn_keeps ih h0 hs).2

/-- From there on, the loop is the loop from that place. -/
theorem Comes.parseLoop (h : Comes env nested spec.length (spec ++ [0]) 0 s m p s')
    (h0 : 0 ∉ spec) : ∃ n, n ≤ p ∧ ∀ fuel,
      parseLoop env nested spec.length (fuel + n) (spec ++ [0]) 0 s =
        parseLoop env nested spec.length fuel m p s' := by
  induction h with
  | start => exact ⟨0, by omega, fun _ => rfl⟩
  | @turn m m' p p' s1 s2 h hp hs ih =>
    obtain ⟨n, hn, hrun⟩ := ih
    have hlt := (parseTurn_keeps (h.keeps h0) h0 hs).1
    refine ⟨n + 1, by omega, fun fuel => ?_⟩
    have hfuel : fuel + (n + 1) = fuel + 1 + n := by omega
    rw [hfuel, hrun, Script.parseLoop, if_pos hp, hs]
    rfl

end Outer

/-! ## Malformed tokens -/

/-- `parse_string` meets a quoted token: in a line that it has come to in state `s'`, behind the
tokens of `l`. -/
structure Meets (env : Env S) (nested : Bytes → S → Run S S) (spec : Bytes) (s : S) (l : Line)
    (s' : S) : Prop where
  line : ∃ m p, Comes env nested spec.length (spec ++ [0]) 0 s m p s' ∧ p < spec.length ∧
    isspace (m.getD p 0) = false ∧ m.getD p 0 ≠ 35 ∧
    OnLine spec.length { m := m, p := p } l
  running : env.halted s' = false
  before : l.p < spec.length
  count : l.toks.length < maxTokens
  quote : l.m.getD l.p 0 = 34

/-- The text behind the opening quote. -/
def behind (spec : Bytes) (l : Line) : Bytes := spec.drop (l.p + 1) ++ [0]

/-- A failure is reported at the token: nothing behind it is taken up, the command of the line is
not executed, and the run ends in the state it came to the line with. -/
def Reported (env : Env S) (depth : Nat) (spec : Bytes) (s : S) (l : Line) (s' : S) : Prop :=
  (¬∃ l', tokStep spec.length l = .ok (some l') ∧ l'.p ≤ spec.length) ∧
    ∃ t, (t = .fatal ∨ t = .assert) ∧ parseString env (depth + 1) spec s = .error (t, s')

section Malformed

variable {env : Env S} {depth : Nat} {spec : Bytes} {s s' : S} {l : Line}

theorem Meets.keeps (h : Meets env (parseString env depth) spec s l s') (h0 : 0 ∉ spec) :
    Keeps spec l := by
  obtain ⟨m, p, hcome, _, _, _, hon⟩ := h.line
  exact (hon.keeps h0 ⟨hcome.keeps h0, by simp⟩).2

/-- What the token loop makes of the token decides about the line. -/
theorem Meets.parseString_error (h : Meets env (parseString env depth) spec s l s') (h0 : 0 ∉ spec)
    {t : Trap} (ht : ∀ fuel, (do
      let l ← collect spec.length (fuel + 2) l
      check (l.p ≤ spec.length)) = .error t) :
    parseString env (depth + 1) spec s = .error (t, s') := by
  obtain ⟨m, p, hcome, hp, hsp, h35, hon⟩ := h.line
  have hun := hcome.keeps h0
  obtain ⟨n, hn, hloop⟩ := hcome.parseLoop h0
  obtain ⟨n', hn', hcol⟩ := hon.collect h0 ⟨hun, by simp⟩
  have hbefore := h.before
  have htok : tokenize spec.length { m := m, p := p } = .error t := by
    have hfuel : spec.length + 1 = (spec.length - 1 - n') + 2 + n' := by
      dsimp only at hn'
      omega
    rw [tokenize, hfuel, hcol]
    have := ht (spec.length - 1 - n')
    cases hc : collect spec.length (spec.length - 1 - n' + 2) l with
    | error t' =>
      rw [hc] at this
      cases this
      rfl
    | ok l' =>
      rw [hc, ok_bind] at this
      rw [ok_bind, this]
      rfl
  have h10 : m.getD p 0 ≠ 10 := by
    intro h10
    rw [h10] at hsp
    cases hsp
  have hfuel : spec.length + 1 = (spec.length - n) + 1 + n := by omega
  rw [parseString, hfuel, hloop, parseLoop, if_pos hp, parseTurn, h.running]
  simp only [Bool.false_eq_true, if_false, hsp, h10, h35, htok]
  rfl

theorem reported_of_unclosed (h : Meets env (parseString env depth) spec s l s') (h0 : 0 ∉ spec)
    (hu : Unclosed (behind spec l)) : Reported env depth spec s l s' := by
  obtain ⟨a, ha, hspec, hlen, heq⟩ := quoteTok_eq (h.keeps h0).unread h.before h.quote
  have hf := quote_unclosed hspec hlen hu
  rw [← heq] at hf
  have hstep := tokStep_quote_eq spec h.quote h.count
  rcases hf with hf | ⟨m', q', hf, _⟩
  · rw [hf, error_bind] at hstep
    refine ⟨?_, .fatal, .inl rfl, h.parseString_error h0 fun fuel => ?_⟩
    · rintro ⟨l', hl', _⟩
      cases hl'.symm.trans hstep
    · rw [collect, if_pos h.before, hstep]
      rfl
  · rw [hf, ok_bind] at hstep
    refine ⟨?_, .assert, .inr rfl, h.parseString_error h0 fun fuel => ?_⟩
    · rintro ⟨l', hl', hle⟩
      cases hl'.symm.trans hstep
      dsimp only at hle
      omega
    · -- `p` is behind the end of the spec
      rw [collect, if_pos h.before, hstep]
      simp [collect]

theorem not_reported_of_rejected (h : Meets env (parseString env depth) spec s l s') (h0 : 0 ∉ spec)
    (hr : Rejected (behind spec l)) : ¬Reported env depth spec s l s' := by
  obtain ⟨a, ha, hspec, hlen, heq⟩ := quoteTok_eq (h.keeps h0).unread h.before h.quote
  have hg := quote_rejected hspec hlen h0 hr
  rw [← heq] at hg
  have hstep := tokStep_quote_eq spec h.quote h.count
  rintro ⟨hstop, t, ht, herr⟩
  rcases hg with ⟨m', p', q', hg, _, hlt, _⟩ | hg
  · rw [hg, ok_bind] at hstep
    exact hstop ⟨_, hstep, hlt⟩
  · rw [heq, quote_lone hlen hg, error_bind] at hstep
    have := h.parseString_error h0 (t := .fuel) fun fuel => by
      rw [collect, if_pos h.before, hstep]
      rfl
    rw [this] at herr
    cases herr
    rcases ht with ht | ht <;> cases ht

/-- A malformed quoted token is reported if and only if what is wrong with it is that it is not
closed. -/
theorem malformed_quote_reported_iff (h0 : 0 ∉ spec)
    (h : Meets env (parseString env depth) spec s l s') (hbad : ¬Closed (behind spec l)) :
    Reported env depth spec s l s' ↔ ¬Rejected (behind spec l) := by
  constructor
  · intro hrep hrej
    exact not_reported_of_rejected h h0 hrej hrep
  · intro hrej
    rcases closed_or (spec.drop (l.p + 1)) (fun hm => h0 (List.mem_of_mem_drop hm)) with
      hk | hk | hk
    · exact absurd hk hbad
    · exact reported_of_unclosed h h0 hk
    · exact absurd hk hrej

end Malformed

/-- In `c "` and what follows it, the quote is met behind the token `c`. -/
theorem meets_second {t : Bytes} : Meets logEnv (parseString logEnv 0) (99 :: 32 :: 34 :: t) []
    { m := 99 :: 32 :: 34 :: (t ++ [0]), p := 2, toks := [(0, 1)] } [] where
  line := by
    refine ⟨99 :: 32 :: 34 :: (t ++ [0]), 0, .start, by simp, rfl, by simp, ?_⟩
    have h1 : tokStep (99 :: 32 :: 34 :: t).length
        { m := 99 :: 32 :: 34 :: (t ++ [0]), p := 0 } =
          .ok (some { m := 99 :: 32 :: 34 :: (t ++ [0]), p := 1, toks := [(0, 1)] }) := rfl
    exact .turn (.turn .start (by simp) h1) (by simp) rfl
  running := rfl
  before := by simp
  count := by simp [maxTokens]
  quote := rfl

/-- `c "a`. -/
theorem malformed_quote_reported_unclosed :
    Reported logEnv 0 [99, 32, 34, 97] []
      { m := [99, 32, 34, 97, 0], p := 2, toks := [(0, 1)] } [] := by
  have hu : Unclosed (behind [99, 32, 34, 97]
      { m := [99, 32, 34, 97, 0], p := 2, toks := [(0, 1)] }) :=
    ⟨[97], [0], .cons (n := 1) rfl .nil, .inl rfl⟩
  exact (malformed_quote_reported_iff (by simp) meets_second hu.not_closed).mpr hu.not_rejected

/-- `c "a\q"`: the command is executed, with the arguments `c`, `a` and an empty one. -/
theorem rejected_escape_accepted :
    Meets logEnv (parseString logEnv 0) [99, 32, 34, 97, 92, 113, 34] []
      { m := [99, 32, 34, 97, 92, 113, 34, 0], p := 2, toks := [(0, 1)] } [] ∧
    Rejected (behind [99, 32, 34, 97, 92, 113, 34]
      { m := [99, 32, 34, 97, 92, 113, 34, 0], p := 2, toks := [(0, 1)] }) ∧
    parseString logEnv 1 [99, 32, 34, 97, 92, 113, 34] [] = .ok [[[99], [97], []]] :=
  ⟨meets_second, ⟨[97], [113, 34, 0], .cons (n := 1) rfl .nil, rfl⟩, rfl⟩

end Script
end VTest
