import VTest.Http1.Rx
import VTest.Http1.Resp

/-!
# VTest.Http1.RxSpec

What the receiving functions do with bytes that are there, over every way the connection may hand
them out.

* `httpRxchar_spec`: the bytes asked for are appended to the buffer.
* `httpRxhdr_spec`: the header is read up to the empty line and not further.
* `httpSplitheader_spec`: a header of well-formed lines is cut into them.
-/

namespace VTest
namespace Http1

/-! ## Reading -/

/-- Nothing fails: `poll` may be interrupted, and a `read` may be short. -/
def Benign (turns : List RxTurn) : Prop := ∀ t ∈ turns, t = .eintr ∨ ∃ k, t = .part k

theorem Benign.tail {t : RxTurn} {turns : List RxTurn} (h : Benign (t :: turns)) : Benign turns :=
  fun x hx => h x (List.mem_cons_of_mem t hx)

theorem benign_nil : Benign [] := fun _ h => nomatch h

/-- `got` is taken from the connection to the end of the buffer `a`, and `r` follows it. -/
def Http.taken (hp : Http) (a got r rest : Bytes) (turns : List RxTurn) : Http :=
  { hp with
    mem := a ++ got ++ r, rxp := a.length + got.length, stream := rest, turns := turns }

theorem store_spec {hp : Http} {a got r rest : Bytes} (hm : hp.mem = a ++ r)
    (hp0 : hp.rxp = a.length) (hs : hp.stream = got ++ rest) (hl : got.length < r.length) :
    hp.store got = hp.taken a got (0 :: r.drop (got.length + 1)) rest hp.turns := by
  obtain ⟨old, c, r', rfl, hlen⟩ : ∃ old c r', r = old ++ c :: r' ∧ old.length = got.length := by
    have hne : r.drop got.length ≠ [] := by simpa using hl
    obtain ⟨c, r', hc⟩ := List.exists_cons_of_ne_nil hne
    exact ⟨r.take got.length, c, r', by rw [← hc, List.take_append_drop], by simp; omega⟩
  have hmem : (put hp.mem hp.rxp got).set (hp.rxp + got.length) 0 = a ++ got ++ 0 :: r' := by
    rw [hm, hp0, ← List.append_assoc, put_append hlen, ← List.length_append,
      List.set_append_right _ _ (by omega)]
    simp
  have hdrop : (old ++ c :: r').drop (got.length + 1) = r' := by
    rw [← hlen, List.drop_append]
    simp
  rw [hp0] at hmem
  simp only [Http.store, Http.taken, hdrop, hs, List.drop_left, hp0, hmem]

theorem taken_nil {hp : Http} {a r rest : Bytes} (turns : List RxTurn) (hm : hp.mem = a ++ r)
    (hp0 : hp.rxp = a.length) (hs : hp.stream = rest) :
    { hp with turns := turns } = hp.taken a [] r rest turns := by
  simp only [Http.taken, List.append_nil, List.length_nil, Nat.add_zero, ← hm, ← hp0, ← hs]

theorem taken_taken (hp : Http) (a got got' r r' rest rest' : Bytes) (turns turns' : List RxTurn) :
    (hp.taken a got r rest turns).taken (a ++ got) got' r' rest' turns' =
      hp.taken a (got ++ got') r' rest' turns' := by
  simp only [Http.taken, List.append_assoc, List.length_append, Nat.add_assoc]

theorem rxcharLoop_zero (eof : Bool) (turns : List RxTurn) (hp : Http) :
    rxcharLoop eof turns hp 0 = .ok (1, { hp with turns := turns }) := by
  cases turns with
  | nil => rfl
  | cons t turns => cases t <;> rfl

/-- The buffer has room for what is asked for. -/
theorem check_room {hp : Http} {a r : Bytes} {n : Nat} (hm : hp.mem = a ++ r)
    (hp0 : hp.rxp = a.length) (hl : n < r.length) :
    check (hp.rxp + n < hp.mem.length) = .ok () := by
  rw [hm, hp0, List.length_append, decide_eq_true (by omega), check_true]

theorem check_noroom {hp : Http} {a r : Bytes} {n : Nat} (hm : hp.mem = a ++ r)
    (hp0 : hp.rxp = a.length) (hl : r.length ≤ n) :
    check (hp.rxp + n < hp.mem.length) = .error .assert := by
  rw [hm, hp0, List.length_append, decide_eq_false (by omega), check_false]

/-- A `read` that gets a part of what is asked for: the loop goes on with the rest. -/
theorem rxcharLoop_part {eof : Bool} {turns : List RxTurn} {hp : Http} {a got r rest : Bytes}
    (k : Nat) (hm : hp.mem = a ++ r) (hp0 : hp.rxp = a.length) (hs : hp.stream = got ++ rest)
    (hl : got.length < r.length) (hne : got ≠ []) :
    ∃ g1 g2, got = g1 ++ g2 ∧ rxcharLoop eof (.part k :: turns) hp got.length =
      rxcharLoop eof turns
        (hp.taken a g1 (0 :: r.drop (g1.length + 1)) (g2 ++ rest) hp.turns) g2.length := by
  have hpos : got.length ≠ 0 := by simpa using hne
  obtain ⟨g1, g2, rfl, hg1⟩ : ∃ g1 g2, got = g1 ++ g2 ∧ g1.length = min (k + 1) got.length :=
    ⟨got.take (min (k + 1) got.length), got.drop (min (k + 1) got.length),
      (List.take_append_drop _ _).symm, by simp⟩
  rw [List.append_assoc] at hs
  have hl1 : g1.length < r.length := by
    rw [List.length_append] at hl
    omega
  have htake : hp.stream.take (min (k + 1) (g1 ++ g2).length) = g1 := by
    rw [hs, ← hg1, List.take_left]
  have hemp : hp.stream.isEmpty = false := by
    rw [hs, List.isEmpty_eq_false_iff]
    intro h
    rw [List.append_eq_nil_iff] at h
    have hzero : g1.length = 0 := List.length_eq_zero_iff.mpr h.1
    omega
  refine ⟨g1, g2, rfl, ?_⟩
  rw [rxcharLoop, if_neg hpos, check_room hm hp0 hl, ok_bind, hemp, if_neg (by simp)]
  simp only [htake, store_spec hm hp0 hs hl1]
  rw [List.length_append, Nat.add_sub_cancel_left]

theorem rxcharLoop_spec {eof : Bool} :
    ∀ (turns : List RxTurn) (hp : Http) (a got r rest : Bytes), Benign turns →
      hp.mem = a ++ r → hp.rxp = a.length → hp.stream = got ++ rest → got.length < r.length →
      ∃ r' turns', rxcharLoop eof turns hp got.length = .ok (1, hp.taken a got r' rest turns') ∧
        Benign turns' ∧ r'.length + got.length = r.length ∧
        (got = [] ∧ r' = r ∨ r' = 0 :: r.drop (got.length + 1)) := by
  intro turns
  induction turns with
  | nil =>
    intro hp a got r rest _ hm hp0 hs hl
    cases got with
    | nil =>
      refine ⟨r, [], ?_, benign_nil, rfl, .inl ⟨rfl, rfl⟩⟩
      rw [List.length_nil, rxcharLoop_zero, taken_nil [] hm hp0 hs]
      rfl
    | cons c got =>
      refine ⟨0 :: r.drop ((c :: got).length + 1), [], ?_, benign_nil, ?_, .inr rfl⟩
      · have hst := @store_spec { hp with turns := [] } a (c :: got) r rest hm hp0 hs hl
        have htake : hp.stream.take (c :: got).length = c :: got := by rw [hs, List.take_left]
        rw [rxcharLoop, rxcharRest, if_neg (by simp), check_room hm hp0 hl, ok_bind,
          if_pos (by simp [hs]), htake, hst]
        rfl
      · simp only [List.length_cons, List.length_drop] at hl ⊢
        omega
  | cons t turns ih =>
    intro hp a got r rest hb hm hp0 hs hl
    by_cases hne : got = []
    · subst hne
      refine ⟨r, t :: turns, ?_, hb, rfl, .inl ⟨rfl, rfl⟩⟩
      rw [List.length_nil, rxcharLoop_zero, taken_nil _ hm hp0 hs]
      rfl
    rcases hb t List.mem_cons_self with rfl | ⟨k, rfl⟩
    · rw [rxcharLoop, if_neg (by simpa using hne)]
      exact ih hp a got r rest hb.tail hm hp0 hs hl
    · -- one part now, the rest by induction
      obtain ⟨g1, g2, rfl, hpart⟩ := @rxcharLoop_part eof turns hp a got r rest k hm hp0 hs hl hne
      obtain ⟨r', turns', hrun, hb', hlen, h0⟩ :=
        ih (hp.taken a g1 (0 :: r.drop (g1.length + 1)) (g2 ++ rest) hp.turns) (a ++ g1) g2
          (0 :: r.drop (g1.length + 1)) rest hb.tail rfl (by simp [Http.taken]) rfl
          (by simp only [List.length_append, List.length_cons, List.length_drop] at hl ⊢; omega)
      refine ⟨r', turns', by rw [hpart, hrun, taken_taken], hb', ?_, .inr ?_⟩
      · simp only [List.length_append, List.length_cons, List.length_drop] at hlen hl ⊢
        omega
      · rcases h0 with ⟨rfl, rfl⟩ | rfl
        · rw [List.append_nil]
        · rw [List.drop_succ_cons, List.drop_drop, List.length_append]
          congr 2
          omega

/-- The bytes asked for are appended to the buffer, with a NUL behind them if there are any. -/
theorem httpRxchar_spec {hp : Http} {a got r rest : Bytes} (eof : Bool) (hb : Benign hp.turns)
    (hm : hp.mem = a ++ r) (hp0 : hp.rxp = a.length) (hs : hp.stream = got ++ rest)
    (hl : got.length < r.length) :
    ∃ r' turns', httpRxchar hp got.length eof = .ok (1, hp.taken a got r' rest turns') ∧
      Benign turns' ∧ r'.length + got.length = r.length ∧
      (got = [] ∧ r' = r ∨ r' = 0 :: r.drop (got.length + 1)) :=
  rxcharLoop_spec hp.turns hp a got r rest hb hm hp0 hs hl

/-- There is no room for what is asked for. -/
theorem rxcharLoop_noroom {eof : Bool} :
    ∀ (turns : List RxTurn) (hp : Http) (a r : Bytes) (n : Nat), Benign turns →
      hp.mem = a ++ r → hp.rxp = a.length → 0 < n → r.length ≤ n →
      rxcharLoop eof turns hp n = .error .assert := by
  intro turns
  induction turns with
  | nil =>
    intro hp a r n _ hm hp0 hn hl
    rw [rxcharLoop, rxcharRest, if_neg (by omega), check_noroom hm hp0 hl]
    rfl
  | cons t turns ih =>
    intro hp a r n hb hm hp0 hn hl
    rcases hb t List.mem_cons_self with rfl | ⟨k, rfl⟩
    · rw [rxcharLoop, if_neg (by omega)]
      exact ih hp a r n hb.tail hm hp0 hn hl
    · rw [rxcharLoop, if_neg (by omega), check_noroom hm hp0 hl]
      rfl

theorem httpRxchar_noroom {hp : Http} {a r : Bytes} {n : Nat} (eof : Bool) (hb : Benign hp.turns)
    (hm : hp.mem = a ++ r) (hp0 : hp.rxp = a.length) (hn : 0 < n) (hl : r.length ≤ n) :
    httpRxchar hp n eof = .error .assert :=
  rxcharLoop_noroom hp.turns hp a r n hb hm hp0 hn hl

theorem rxcharLoop_short {eof : Bool} :
    ∀ (turns : List RxTurn) (hp : Http) (a r : Bytes) (n : Nat), Benign turns →
      hp.mem = a ++ r → hp.rxp = a.length → hp.stream.length < n → n < r.length →
      ∃ r' turns', rxcharLoop eof turns hp n = (hp.taken a hp.stream r' [] turns').eof eof ∧
        Benign turns' ∧ r'.length + hp.stream.length = r.length ∧
        (hp.stream = [] ∧ r' = r ∨ r' = 0 :: r.drop (hp.stream.length + 1)) := by
  intro turns
  induction turns with
  | nil =>
    intro hp a r n _ hm hp0 hs hl
    rw [rxcharLoop, rxcharRest, if_neg (by omega), check_room hm hp0 hl, ok_bind,
      if_neg (by simp; omega)]
    by_cases hemp : hp.stream = []
    · refine ⟨r, [], ?_, benign_nil, by rw [hemp]; rfl, .inl ⟨hemp, rfl⟩⟩
      rw [if_pos (List.isEmpty_iff.mpr hemp), taken_nil [] hm hp0 rfl, hemp]
    · refine ⟨0 :: r.drop (hp.stream.length + 1), [], ?_, benign_nil, ?_, .inr rfl⟩
      · have hst := @store_spec { hp with turns := [] } a hp.stream r [] hm hp0 (by simp) (by omega)
        rw [if_neg (by simpa using hemp), hst]
        rfl
      · simp only [List.length_cons, List.length_drop]
        omega
  | cons t turns ih =>
    intro hp a r n hb hm hp0 hs hl
    rcases hb t List.mem_cons_self with rfl | ⟨k, rfl⟩
    · rw [rxcharLoop, if_neg (by omega)]
      exact ih hp a r n hb.tail hm hp0 hs hl
    · rw [rxcharLoop, if_neg (by omega), check_room hm hp0 hl, ok_bind]
      by_cases hemp : hp.stream = []
      · refine ⟨r, turns, ?_, hb.tail, by rw [hemp]; rfl, .inl ⟨hemp, rfl⟩⟩
        rw [if_pos (List.isEmpty_iff.mpr hemp), taken_nil turns hm hp0 rfl, hemp]
      · -- one part now, the rest by induction
        obtain ⟨g1, g2, hg, hg1⟩ : ∃ g1 g2, hp.stream = g1 ++ g2 ∧
            hp.stream.take (min (k + 1) n) = g1 :=
          ⟨_, hp.stream.drop (min (k + 1) n), (List.take_append_drop _ _).symm, rfl⟩
        have hlen : hp.stream.length = g1.length + g2.length := by rw [hg, List.length_append]
        obtain ⟨r', turns', hrun, hb', hlen', h0⟩ :=
          ih (hp.taken a g1 (0 :: r.drop (g1.length + 1)) g2 hp.turns) (a ++ g1)
            (0 :: r.drop (g1.length + 1)) (n - g1.length) hb.tail rfl (by simp [Http.taken])
            (by simp only [Http.taken]; omega)
            (by simp only [List.length_cons, List.length_drop]; omega)
        have htt := taken_taken hp a g1 g2 (0 :: r.drop (g1.length + 1)) r' g2 [] hp.turns turns'
        refine ⟨r', turns', ?_, hb', ?_, ?_⟩
        · simp only [if_neg (by simpa using hemp : ¬hp.stream.isEmpty), hg1,
            store_spec hm hp0 hg (by omega)]
          rw [hrun, hg]
          exact congrArg (fun h => Http.eof h eof) htt
        · simp only [Http.taken, List.length_cons, List.length_drop] at hlen' ⊢
          omega
        · refine .inr ?_
          rcases h0 with ⟨hg2, rfl⟩ | rfl
          · have hg2 : g2 = [] := hg2
            rw [hg, hg2, List.append_nil]
          · rw [List.drop_succ_cons, List.drop_drop, hlen]
            congr 2
            exact Nat.add_right_comm _ _ _

/-- The connection ends before all that is asked for has come. -/
theorem httpRxchar_short {hp : Http} {a r : Bytes} {n : Nat} (eof : Bool) (hb : Benign hp.turns)
    (hm : hp.mem = a ++ r) (hp0 : hp.rxp = a.length) (hs : hp.stream.length < n)
    (hl : n < r.length) :
    ∃ r' turns', httpRxchar hp n eof = (hp.taken a hp.stream r' [] turns').eof eof ∧
      Benign turns' ∧ r'.length + hp.stream.length = r.length ∧
      (hp.stream = [] ∧ r' = r ∨ r' = 0 :: r.drop (hp.stream.length + 1)) :=
  rxcharLoop_short hp.turns hp a r n hb hm hp0 hs hl

/-! ## The end of the header -/

/-- The bytes end the header, and no beginning of them does. -/
def EndsAt : HdrSt → Bytes → Prop
  | _, [] => False
  | s, b :: t =>
    match hdrNext s b with
    | none => t = []
    | some s => EndsAt s t

/-- No CR, LF or NUL. -/
def Printable (w : Bytes) : Prop := ∀ b ∈ w, b ≠ 13 ∧ b ≠ 10 ∧ b ≠ 0

theorem hdrNext_text {s : HdrSt} {b : UInt8} (h13 : b ≠ 13) (h10 : b ≠ 10) :
    hdrNext s b = some .text := by
  simp [hdrNext, h13, h10]

theorem endsAt_line {w t : Bytes} (hw : Printable w) (ht : EndsAt .nl t) :
    EndsAt .text (w ++ 13 :: 10 :: t) := by
  induction w with
  | nil => exact ht
  | cons b w ih =>
    have hb := hw b List.mem_cons_self
    rw [List.cons_append, EndsAt, hdrNext_text hb.1 hb.2.1]
    exact ih fun c hc => hw c (List.mem_cons_of_mem b hc)

theorem endsAt_next {w t : Bytes} (hw : Printable w) (hne : w ≠ []) (ht : EndsAt .nl t) :
    EndsAt .nl (w ++ 13 :: 10 :: t) := by
  obtain ⟨b, w, rfl⟩ := List.exists_cons_of_ne_nil hne
  have hb := hw b List.mem_cons_self
  rw [List.cons_append, EndsAt, hdrNext_text hb.1 hb.2.1]
  exact endsAt_line (fun c hc => hw c (List.mem_cons_of_mem b hc)) ht

theorem rxhdrLoop_spec :
    ∀ (head : Bytes) (fuel : Nat) (s : HdrSt) (hp : Http) (a r rest : Bytes), EndsAt s head →
      head.length ≤ fuel → Benign hp.turns → hp.mem = a ++ r → hp.rxp = a.length →
      hp.stream = head ++ rest → head.length < r.length →
      ∃ r' turns', rxhdrLoop fuel s hp = .ok (1, hp.taken a head r' rest turns') ∧
        Benign turns' ∧ r'.length + head.length = r.length ∧
        r' = 0 :: r.drop (head.length + 1) := by
  intro head
  induction head with
  | nil => intro fuel s hp a r rest h; exact h.elim
  | cons b head ih =>
    intro fuel s hp a r rest hend hfuel hb hm hp0 hs hl
    obtain ⟨fuel, rfl⟩ : ∃ f, fuel = f + 1 := ⟨fuel - 1, by simp at hfuel; omega⟩
    simp only [List.length_cons] at hfuel hl
    obtain ⟨r1, turns1, h1, hb1, hlen1, h01⟩ :=
      @httpRxchar_spec hp a [b] r (head ++ rest) true hb hm hp0 hs (by simp; omega)
    have h01 := h01.resolve_left fun h => List.cons_ne_nil _ _ h.1
    have hbyte : (hp.taken a [b] r1 (head ++ rest) turns1).mem.getD hp.rxp 0 = b := by
      simp [Http.taken, hp0]
    have hrx : httpRxchar hp 1 true = .ok (1, hp.taken a [b] r1 (head ++ rest) turns1) := h1
    rw [rxhdrLoop, hrx, ok_bind]
    simp only [hbyte, if_neg (by decide : ¬(1 : Int) < 1)]
    rw [EndsAt] at hend
    cases hnext : hdrNext s b with
    | none =>
      rw [hnext] at hend
      cases hend
      exact ⟨r1, turns1, rfl, hb1, hlen1, h01⟩
    | some s' =>
      rw [hnext] at hend
      obtain ⟨r', turns', h2, hb2, hlen2, h02⟩ :=
        ih fuel s' (hp.taken a [b] r1 (head ++ rest) turns1) (a ++ [b]) r1 rest hend (by omega) hb1
          rfl (by simp [Http.taken]) rfl (by simp at hlen1; omega)
      refine ⟨r', turns', ?_, hb2, ?_, ?_⟩
      · rw [taken_taken] at h2
        exact h2
      · simp only [List.length_cons, List.length_nil] at hlen1 ⊢
        omega
      · rw [h02, h01, List.drop_succ_cons, List.drop_drop, List.length_cons]
        congr 2
        simp only [List.length_cons, List.length_nil]
        omega

/-- The header is read up to the empty line and not further. -/
theorem httpRxhdr_spec {hp : Http} {head rest : Bytes} (hend : EndsAt .text head)
    (hb : Benign hp.turns) (hs : hp.stream = head ++ rest) (hl : head.length < hp.mem.length) :
    ∃ r turns, httpRxhdr hp =
        .ok { hp with
              mem := head ++ 0 :: r, rxp := head.length, body := some head.length, bodylen := undef,
              stream := rest, turns := turns } ∧
      Benign turns ∧ (head ++ 0 :: r).length = hp.mem.length ∧
      r = hp.mem.drop (head.length + 1) := by
  let hp0 : Http := { hp with rxp := 0, mem := hp.mem.set 0 0, body := none, bodylen := undef }
  obtain ⟨r', turns, hrun, hb', hlen, h0⟩ :=
    rxhdrLoop_spec head (hp.stream.length + 1) .text hp0 [] (hp.mem.set 0 0) rest hend
      (by rw [hs, List.length_append]; omega) hb rfl rfl hs (by simpa using hl)
  subst h0
  refine ⟨(hp.mem.set 0 0).drop (head.length + 1), turns, ?_, hb', ?_, ?_⟩
  · rw [httpRxhdr, show rxhdrLoop (hp.stream.length + 1) .text _ = _ from hrun, ok_bind]
    simp [Http.taken, hp0]
  · simp only [List.length_cons, List.length_set, List.length_append] at hlen ⊢
    omega
  · rw [List.drop_set, if_pos (by omega)]

/-! ## Cutting the header -/

theorem skipWhile_spec {f : UInt8 → Bool} {c : UInt8} {w r : Bytes} (hw : ∀ b ∈ w, f b = true)
    (hc : f c = false) (done : Bytes) :
    skipWhile f done (w ++ c :: r) = .ok ⟨done ++ w, c :: r⟩ := by
  induction w generalizing done with
  | nil => simp [skipWhile, hc]
  | cons b w ih =>
    rw [List.cons_append, skipWhile, if_pos (hw b List.mem_cons_self),
      ih (fun c hc => hw c (List.mem_cons_of_mem b hc)), List.append_assoc]
    rfl

theorem iscrlf_text {b : UInt8} (h13 : b ≠ 13) (h10 : b ≠ 10) (r : Bytes) :
    iscrlf (b :: r) = 0 := by
  unfold iscrlf
  split
  · rename_i h
    exact absurd (List.cons.inj h).1 h13
  · rename_i h
    exact absurd (List.cons.inj h).1 h10
  · rfl

theorem skipLine_spec {w r : Bytes} (hw : Printable w) (nul : Bool) (done : Bytes) :
    skipLine nul done (w ++ 13 :: 10 :: r) = .ok ⟨done ++ w, 13 :: 10 :: r⟩ := by
  induction w generalizing done with
  | nil => simp [skipLine, iscrlf]
  | cons b w ih =>
    obtain ⟨h13, h10, h0⟩ := hw b List.mem_cons_self
    rw [List.cons_append, skipLine, if_neg (by simp [h0]), iscrlf_text h13 h10,
      if_neg (by simp), ih fun c hc => hw c (List.mem_cons_of_mem b hc), List.append_assoc]
    rfl

/-- Lines after they have been cut. -/
def cutText (ls : List Bytes) : Bytes := ls.flatMap (· ++ [0, 10])

/-- Where the lines start, the first of them at `p`. -/
def starts : Nat → List Bytes → List (Option Nat)
  | _, [] => []
  | p, l :: ls => some p :: starts (p + l.length + 2) ls

theorem splitLines_spec {r : Bytes} :
    ∀ (ls : List Bytes) (fuel : Nat) (done : Bytes) (hh : List (Option Nat)),
      (∀ l ∈ ls, l ≠ [] ∧ Printable l) → ls.length < fuel → hh.length + ls.length < maxHdr →
      splitLines fuel ⟨done, linesText ls ++ 13 :: 10 :: r⟩ hh =
        .ok (⟨done ++ cutText ls, 13 :: 10 :: r⟩, hh ++ starts done.length ls) := by
  intro ls
  induction ls with
  | nil =>
    intro fuel done hh _ hf hm
    obtain ⟨fuel, rfl⟩ : ∃ f, fuel = f + 1 := ⟨fuel - 1, by simp at hf; omega⟩
    simp only [List.length_nil, Nat.add_zero] at hm
    simp [splitLines, hm, iscrlf, cutText, starts]
  | cons l ls ih =>
    intro fuel done hh hls hf hm
    obtain ⟨fuel, rfl⟩ : ∃ f, fuel = f + 1 := ⟨fuel - 1, by simp at hf; omega⟩
    obtain ⟨hne, hl⟩ := hls l List.mem_cons_self
    obtain ⟨b, w, rfl⟩ := List.exists_cons_of_ne_nil hne
    obtain ⟨h13, h10, h0⟩ := hl b List.mem_cons_self
    have hw : Printable w := fun c hc => hl c (List.mem_cons_of_mem b hc)
    simp only [List.length_cons] at hf hm
    have hrest : linesText ((b :: w) :: ls) ++ 13 :: 10 :: r =
        b :: (w ++ 13 :: 10 :: (linesText ls ++ 13 :: 10 :: r)) := by
      simp [nl]
    rw [hrest, splitLines]
    simp only [if_neg h0, decide_eq_true (by omega : hh.length < maxHdr), check_true, ok_bind,
      iscrlf_text h13 h10, ne_eq, not_true_eq_false, if_false, skipLine_spec hw]
    rw [if_neg (by simp)]
    simp only [Cur.cutLine, ok_bind]
    rw [ih fuel _ _ (fun x hx => hls x (List.mem_cons_of_mem _ hx)) (by omega)
      (by simp only [List.length_append, List.length_cons, List.length_nil]; omega)]
    simp [cutText, starts, Cur.at, Nat.add_assoc, Nat.add_comm, Nat.add_left_comm]

/-- No space, tab, line end or NUL. -/
def Word (w : Bytes) : Prop := w ≠ [] ∧ ∀ b ∈ w, islws b = false ∧ b ≠ 0

/-- What the parts of a response must be for its header to be read back. -/
structure Resp.Wf (r : Resp) : Prop where
  proto : Word r.proto
  status : Word r.status
  reason : Printable r.reason
  reason_head : ∀ b ∈ r.reason.head?, issp b = false
  lines : ∀ l ∈ r.lines, l ≠ [] ∧ Printable l

theorem Word.printable {w : Bytes} (h : Word w) : Printable w := by
  intro b hb
  obtain ⟨hlws, h0⟩ := h.2 b hb
  simp only [islws, Bool.or_eq_false_iff, decide_eq_false_iff_not] at hlws
  exact ⟨hlws.2, hlws.1.2, h0⟩

theorem Printable.append {w w' : Bytes} (h : Printable w) (h' : Printable w') :
    Printable (w ++ w') := by
  intro b hb
  rcases List.mem_append.mp hb with hb | hb
  · exact h b hb
  · exact h' b hb

theorem printable_space : Printable [32] := by
  intro b hb
  cases List.mem_singleton.mp hb
  decide

namespace Resp

/-- The header of a response, as it is on the wire, ends where it ends. -/
theorem endsAt_head {r : Resp} (h : r.Wf) : EndsAt .text r.head := by
  have hfirst : Printable r.firstLine :=
    ((((h.proto.printable.append printable_space).append h.status.printable).append
      printable_space).append h.reason)
  have hlines : ∀ ls : List Bytes, (∀ l ∈ ls, l ≠ [] ∧ Printable l) →
      EndsAt .nl (linesText ls ++ nl) := by
    intro ls
    induction ls with
    | nil => intro _; exact rfl
    | cons l ls ih =>
      intro hls
      obtain ⟨hne, hl⟩ := hls l List.mem_cons_self
      have := endsAt_next hl hne (ih fun x hx => hls x (List.mem_cons_of_mem l hx))
      simpa [nl] using this
  have := endsAt_line hfirst (hlines r.lines h.lines)
  simpa [Resp.head, nl] using this

/-- The header after it has been cut. -/
def cut (r : Resp) : Bytes :=
  r.proto ++ [0] ++ r.status ++ [0] ++ r.reason ++ [0, 10] ++ cutText r.lines

/-- The pointers to its parts. -/
def fields (r : Resp) : List (Option Nat) :=
  [some 0, some (r.proto.length + 1), some (r.proto.length + 1 + r.status.length + 1)] ++
    starts (r.proto.length + 1 + r.status.length + 1 + r.reason.length + 2) r.lines

end Resp

theorem length_cutText (ls : List Bytes) : (cutText ls).length = (linesText ls).length := by
  induction ls with
  | nil => rfl
  | cons l ls ih =>
    have h : cutText (l :: ls) = l ++ [0, 10] ++ cutText ls := rfl
    simp [h, nl, ih]

theorem Resp.length_cut (r : Resp) : (r.cut ++ nl).length = r.head.length := by
  simp only [Resp.cut, Resp.head, Resp.firstLine, List.length_append, length_cutText, nl,
    List.length_cons, List.length_nil]

/-- A word is skipped up to the space or line end behind it. -/
theorem skipWord {w r : Bytes} {c : UInt8} (h : Word w) (hc : islws c = true) (done : Bytes) :
    skipWhile (!islws ·) done (w ++ c :: r) = .ok ⟨done ++ w, c :: r⟩ :=
  skipWhile_spec (fun b hb => by simp [(h.2 b hb).1]) (by simp [hc]) done

/-- Nothing is skipped in front of a character that is not a blank. -/
theorem skipWhile_none {f : UInt8 → Bool} {b : UInt8} (h : f b = false) (done r : Bytes) :
    skipWhile f done (b :: r) = .ok ⟨done, b :: r⟩ := by
  simp [skipWhile, h]

/-- A word starts with a character that ends no blanks and no line. -/
theorem Word.head {w : Bytes} (h : Word w) :
    ∃ b w', w = b :: w' ∧ islws b = false ∧ issp b = false ∧ b ≠ 0 ∧
      ∀ r, iscrlf (w ++ r) = 0 := by
  obtain ⟨b, w', rfl⟩ := List.exists_cons_of_ne_nil h.1
  obtain ⟨hlws, h0⟩ := h.2 b List.mem_cons_self
  obtain ⟨h13, h10, _⟩ := h.printable b List.mem_cons_self
  have hsp : issp b = false := by
    simp only [islws, Bool.or_eq_false_iff] at hlws
    exact hlws.1.1
  exact ⟨b, w', rfl, hlws, hsp, h0, fun r => iscrlf_text h13 h10 (w' ++ r)⟩

theorem splitFirst_spec {r : Resp} (h : r.Wf) (t : Bytes) :
    splitFirst (r.firstLine ++ 13 :: 10 :: t) =
      .ok (⟨r.proto ++ [0] ++ r.status ++ [0] ++ r.reason ++ [0, 10], t⟩,
        [some 0, some (r.proto.length + 1), some (r.proto.length + 1 + r.status.length + 1)]) := by
  have hmem : r.firstLine ++ 13 :: 10 :: t =
      r.proto ++ 32 :: (r.status ++ 32 :: (r.reason ++ 13 :: 10 :: t)) := by
    simp [Resp.firstLine]
  obtain ⟨b, w, hw, hb, _⟩ := h.proto.head
  have hproto : skipWhile islws [] (r.firstLine ++ 13 :: 10 :: t) =
      .ok ⟨[], r.proto ++ 32 :: (r.status ++ 32 :: (r.reason ++ 13 :: 10 :: t))⟩ := by
    rw [hmem, hw]
    exact skipWhile_none hb _ _
  obtain ⟨c, v, hv, _, hc, _, hcr⟩ := h.status.head
  have hstatus : skipWhile issp (r.proto ++ [0]) (r.status ++ 32 :: (r.reason ++ 13 :: 10 :: t)) =
      .ok ⟨r.proto ++ [0], r.status ++ 32 :: (r.reason ++ 13 :: 10 :: t)⟩ := by
    rw [hv]
    exact skipWhile_none hc _ _
  have hreason : ∀ done, skipWhile issp done (r.reason ++ 13 :: 10 :: t) =
      .ok ⟨done, r.reason ++ 13 :: 10 :: t⟩ := by
    intro done
    cases hr : r.reason with
    | nil => exact skipWhile_none rfl _ _
    | cons d u => exact skipWhile_none (h.reason_head d (by rw [hr]; rfl)) _ _
  have hsp : ∀ u, iscrlf (32 :: u) = 0 := fun u => rfl
  rw [splitFirst, hproto, ok_bind]
  simp only [skipWord h.proto (by rfl : islws 32 = true), ok_bind, hsp, Cur.cut, decide_true,
    check_true, List.nil_append, hstatus, hcr, skipWord h.status (by rfl : islws 32 = true),
    ne_eq, not_true_eq_false, if_false, hreason, skipLine_spec h.reason, Cur.cutLine]
  have hat : (r.proto ++ [0] ++ r.status ++ [0]).length =
      r.proto.length + 1 + r.status.length + 1 := by
    simp only [List.length_append, List.length_cons, List.length_nil]
  simp [Cur.at, ← hat]

theorem length_le_linesText : ∀ ls : List Bytes, ls.length ≤ (linesText ls).length := by
  intro ls
  induction ls with
  | nil => exact Nat.le_refl 0
  | cons l ls ih =>
    simp only [linesText_cons, List.length_append, List.length_cons, nl, List.length_nil]
    omega

/-- A header of well-formed lines is cut into them. -/
theorem httpSplitheader_spec {r : Resp} (h : r.Wf) (hn : r.lines.length ≤ 60) (t : Bytes) :
    httpSplitheader (r.head ++ 0 :: t) = .ok (r.cut ++ nl ++ 0 :: t, r.fields) := by
  obtain ⟨b, w, hw, _, _, h0, _⟩ := h.proto.head
  have hhead : (r.head ++ 0 :: t).head? ≠ some 0 := by
    simp [Resp.head, Resp.firstLine, hw, h0]
  have hmem : r.head ++ 0 :: t =
      r.firstLine ++ 13 :: 10 :: (linesText r.lines ++ 13 :: 10 :: 0 :: t) := by
    simp [Resp.head, nl]
  rw [httpSplitheader, if_neg hhead, hmem, splitFirst_spec h, ok_bind]
  have hfuel : r.lines.length < (linesText r.lines ++ 13 :: 10 :: 0 :: t).length + 1 := by
    have := length_le_linesText r.lines
    rw [List.length_append]
    omega
  dsimp only
  rw [splitLines_spec r.lines _ _ _ h.lines hfuel
    (by simp only [List.length_cons, List.length_nil, maxHdr]; omega), ok_bind]
  have hat : (r.proto ++ [0] ++ r.status ++ [0] ++ r.reason ++ [0, 10]).length =
      r.proto.length + 1 + r.status.length + 1 + r.reason.length + 2 := by
    simp only [List.length_append, List.length_cons, List.length_nil]
  rw [hat]
  simp [iscrlf, Resp.cut, Resp.fields, nl]

/-! ## Reading the parts -/

/-- The strings behind the pointers, whatever follows the header. -/
theorem map_cstr_starts {t : Bytes} :
    ∀ (ls : List Bytes) (a : Bytes), (∀ l ∈ ls, l ≠ [] ∧ Printable l) →
      (starts a.length ls).map (Option.map (cstr (a ++ cutText ls ++ t))) = ls.map some := by
  intro ls
  induction ls with
  | nil => intro a _; rfl
  | cons l ls ih =>
    intro a hls
    have hl := (hls l List.mem_cons_self).2
    have hcut : a ++ cutText (l :: ls) ++ t = (a ++ (l ++ [0, 10])) ++ cutText ls ++ t := by
      simp [cutText]
    have hcstr : cstr (a ++ cutText (l :: ls) ++ t) a.length = l := by
      have e : a ++ cutText (l :: ls) ++ t = a ++ (l ++ 0 :: (10 :: (cutText ls ++ t))) := by
        simp [cutText]
      rw [e, cstr_append fun c hc => (hl c hc).2.2]
    have hlen : a.length + l.length + 2 = (a ++ (l ++ [0, 10])).length := by
      simp [Nat.add_assoc]
    rw [starts, List.map_cons, Option.map_some, hcstr, hcut, hlen,
      ih _ fun x hx => hls x (List.mem_cons_of_mem l hx), List.map_cons]

theorem field_spec {r : Resp} (h : r.Wf) {hp : Http} {t : Bytes} (hm : hp.mem = r.cut ++ t)
    (hr : hp.resp = r.fields) :
    hp.field 0 = some r.proto ∧ hp.field 1 = some r.status ∧ hp.field 2 = some r.reason := by
  have h0 : cstr hp.mem 0 = r.proto := by
    have e : hp.mem = [] ++ (r.proto ++ 0 :: (r.status ++ [0] ++ r.reason ++ [0, 10] ++
        cutText r.lines ++ t)) := by
      simp [hm, Resp.cut]
    rw [e]
    exact cstr_append fun c hc => (h.proto.2 c hc).2
  have h1 : cstr hp.mem (r.proto.length + 1) = r.status := by
    have e : hp.mem = (r.proto ++ [0]) ++ (r.status ++ 0 :: (r.reason ++ [0, 10] ++
        cutText r.lines ++ t)) := by
      simp [hm, Resp.cut]
    have := cstr_append (a := r.proto ++ [0]) (r := r.reason ++ [0, 10] ++ cutText r.lines ++ t)
      fun c hc => (h.status.2 c hc).2
    rwa [← e, List.length_append] at this
  have h2 : cstr hp.mem (r.proto.length + 1 + r.status.length + 1) = r.reason := by
    have e : hp.mem = (r.proto ++ [0] ++ r.status ++ [0]) ++ (r.reason ++ 0 :: ([10] ++
        cutText r.lines ++ t)) := by
      simp [hm, Resp.cut]
    have := cstr_append (a := r.proto ++ [0] ++ r.status ++ [0]) (r := [10] ++ cutText r.lines ++ t)
      fun c hc => (h.reason c hc).2.2
    rw [← e] at this
    simpa only [List.length_append, List.length_cons, List.length_nil] using this
  refine ⟨?_, ?_, ?_⟩
  · rw [Http.field, hr, ← h0]; rfl
  · rw [Http.field, hr, ← h1]; rfl
  · rw [Http.field, hr, ← h2]; rfl

theorem isSome_starts : ∀ (ls : List Bytes) (p : Nat), ∀ x ∈ starts p ls, x.isSome = true := by
  intro ls
  induction ls with
  | nil => intro p x hx; cases hx
  | cons l ls ih =>
    intro p x hx
    rcases List.mem_cons.mp hx with rfl | hx
    · rfl
    · exact ih _ x hx

theorem lines_spec {r : Resp} (h : r.Wf) {hp : Http} {t : Bytes} (hm : hp.mem = r.cut ++ t)
    (hr : hp.resp = r.fields) : hp.lines = r.lines := by
  have hat : (r.proto ++ [0] ++ r.status ++ [0] ++ r.reason ++ [0, 10]).length =
      r.proto.length + 1 + r.status.length + 1 + r.reason.length + 2 := by
    simp only [List.length_append, List.length_cons, List.length_nil]
  have hmap := map_cstr_starts (t := t) r.lines
    (r.proto ++ [0] ++ r.status ++ [0] ++ r.reason ++ [0, 10]) h.lines
  rw [hat] at hmap
  have hdrop : hp.resp.drop 3 =
      starts (r.proto.length + 1 + r.status.length + 1 + r.reason.length + 2) r.lines := by
    rw [hr]; rfl
  have hread := congrArg (List.filterMap id) hmap
  rw [List.filterMap_map, List.filterMap_map, Function.id_comp, Function.id_comp,
    List.filterMap_some] at hread
  rw [Http.lines, hdrop, List.takeWhile_eq_self_iff.mpr (isSome_starts r.lines _), hm, Resp.cut]
  exact hread

end Http1
end VTest
