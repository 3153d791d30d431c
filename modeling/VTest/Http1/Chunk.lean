import VTest.Http1.RoundTrip

/-!
# VTest.Http1.Chunk

Chunked bodies: what `chunked` and `chunkedlen` send, and how `http_rxchunk` and
`http_swallow_body` put it together again.

* `chunkBytes` is a chunk on the wire; both commands send one (`cmdHttpChunkedlen_eq`).
* `chunkLen` is the length that a size line is read as.
* `httpRxchunk_spec`: one chunk is taken off the connection. Its size line is read into the place
  where its data comes to stand, and so is the line end behind the data.
* `swallowChunks_spec`: the chunks up to the empty one, by induction on their list.
-/

namespace VTest
namespace Http1

/-! ## Sending -/

/-- `chunked`: what it writes. -/
def cmdHttpChunked (s : Bytes) : Bytes := numeral 16 s.length ++ nl ++ s ++ nl

/-- `buf` in `cmd_http_chunkedlen`. -/
def patternBuf : Bytes := (List.range 16384).map fun u => UInt8.ofNat ((u &&& 7) + 48)

/-- The loop that appends `buf` until `len` bytes are there. -/
def patternLoop (len u : Nat) (vsb : Bytes) : Bytes :=
  if u < len then
    let v := min (len - u) 16384
    patternLoop len (u + v) (vsb ++ patternBuf.take v)
  else vsb
termination_by len - u

/-- `len` in `cmd_http_chunkedlen`, an `unsigned`. -/
def chunkedlenLen (arg : Bytes) : Nat := (atoi arg % 2 ^ 32).toNat

/-- `chunkedlen`: what it writes. -/
def cmdHttpChunkedlen (arg : Bytes) : Bytes :=
  if chunkedlenLen arg = 0 then ascii "0" ++ nl ++ nl
  else
    numeral 16 (chunkedlenLen arg) ++ nl ++ patternLoop (chunkedlenLen arg) 0 [] ++ nl

/-- The loop of `expect_pattern`, with `t`. -/
def expectPatternLoop : UInt8 → Bytes → Res Unit
  | _, [] => .ok ()
  | t, c :: p => if c ≠ t then .error .fatal else expectPatternLoop ((t + 1) &&& ~~~8) p

def cmdHttpExpectPattern (hp : Http) : Res Unit :=
  match hp.body with
  | none => .error .ub
  | some body => expectPatternLoop 48 (cstr hp.mem body)

/-! ## The pattern -/

/-- The digits from 0 to 7, over and over. -/
def pattern (n : Nat) : Bytes := (List.range n).map fun u => digit (u % 8)

@[simp] theorem length_pattern (n : Nat) : (pattern n).length = n := by
  simp [pattern]

theorem pattern_add {u : Nat} (h : 8 ∣ u) (v : Nat) : pattern (u + v) = pattern u ++ pattern v := by
  obtain ⟨k, rfl⟩ := h
  rw [pattern, List.range_add, List.map_append, List.map_map]
  congr 1
  refine List.map_congr_left fun x _ => ?_
  simp [Nat.add_mod]

theorem patternBuf_take {v : Nat} (h : v ≤ 16384) : patternBuf.take v = pattern v := by
  rw [patternBuf, ← List.map_take, List.take_range, Nat.min_eq_left h, pattern]
  refine List.map_congr_left fun u _ => ?_
  rw [digit, show u &&& 7 = u % 8 from Nat.and_two_pow_sub_one_eq_mod u 3, Nat.add_comm]

/-- All but the last of the appended parts are whole buffers, and a buffer ends with a 7. -/
theorem patternLoop_eq (len u : Nat) (hu : u ≤ len) (h8 : 8 ∣ u) :
    patternLoop len u (pattern u) = pattern len := by
  induction hn : len - u using Nat.strong_induction_on generalizing u with
  | _ n ih =>
    rw [patternLoop]
    by_cases hlt : u < len
    · rw [if_pos hlt]
      simp only
      rw [patternBuf_take (Nat.min_le_right _ _), ← pattern_add h8]
      by_cases hlast : len - u ≤ 16384
      · rw [Nat.min_eq_left hlast, Nat.add_sub_cancel' hu, patternLoop, if_neg (lt_irrefl len)]
      · rw [Nat.min_eq_right (by omega)]
        exact ih _ (by omega) (u + 16384) (by omega) (by omega) rfl
    · rw [if_neg hlt, show u = len by omega]

theorem mem_pattern {n : Nat} {b : UInt8} (h : b ∈ pattern n) : ∃ d, d < 8 ∧ b = digit d := by
  rw [pattern, List.mem_map] at h
  obtain ⟨u, -, rfl⟩ := h
  exact ⟨u % 8, Nat.mod_lt u (by decide), rfl⟩

/-- `t` goes through the digits as the pattern does. -/
theorem expectPattern_next : ∀ d : Fin 8, (digit d + 1) &&& ~~~8 = digit ((d.val + 1) % 8) := by
  decide

theorem expectPatternLoop_pattern (n : Nat) : ∀ u,
    expectPatternLoop (digit (u % 8)) ((List.range' u n).map fun u => digit (u % 8)) = .ok () := by
  induction n with
  | zero => intro u; rfl
  | succ n ih =>
    intro u
    have hnext := expectPattern_next ⟨u % 8, Nat.mod_lt u (by decide)⟩
    simp only [Nat.mod_add_mod] at hnext
    rw [List.range'_succ, List.map_cons, expectPatternLoop, if_neg (by simp), hnext]
    exact ih (u + 1)

/-- `expect_pattern` accepts the pattern, of whatever length. -/
theorem expectPatternLoop_ok (n : Nat) : expectPatternLoop 48 (pattern n) = .ok () := by
  rw [pattern, List.range_eq_range']
  exact expectPatternLoop_pattern n 0

/-! ## Chunks on the wire -/

/-- A chunk: its size in hexadecimal, its data, and a line end behind each. -/
def chunkBytes (data : Bytes) : Bytes := numeral 16 data.length ++ nl ++ (data ++ nl)

theorem cmdHttpChunked_eq (s : Bytes) : cmdHttpChunked s = chunkBytes s := by
  simp [cmdHttpChunked, chunkBytes]

/-- `chunkedlen` sends the pattern as a chunk, the last chunk for the length 0 included. -/
theorem cmdHttpChunkedlen_eq (arg : Bytes) :
    cmdHttpChunkedlen arg = chunkBytes (pattern (chunkedlenLen arg)) := by
  rw [cmdHttpChunkedlen, chunkBytes, length_pattern]
  split
  · rename_i h
    rw [h]
    decide
  · have hloop := patternLoop_eq (chunkedlenLen arg) 0 (Nat.zero_le _) (dvd_zero 8)
    rw [show pattern 0 = [] from rfl] at hloop
    rw [hloop]
    simp

/-! ## Receiving -/

/-- `http_rxchunk` reads up to the end of the size line. -/
theorem rxchunkLine_spec {rest : Bytes} : ∀ (line : Bytes) (fuel : Nat) (hp : Http) (a r : Bytes),
    (∀ b ∈ line, b ≠ 10) → line.length < fuel → Benign hp.turns → hp.mem = a ++ r →
    hp.rxp = a.length → hp.stream = line ++ 10 :: rest → line.length + 1 < r.length →
    ∃ r' turns, rxchunkLine fuel hp = .ok (1, hp.taken a (line ++ [10]) r' rest turns) ∧
      Benign turns ∧ r'.length + (line.length + 1) = r.length ∧ r'.head? = some 0 := by
  intro line
  induction line with
  | nil =>
    intro fuel hp a r _ hf hb hm hp0 hs hl
    obtain ⟨fuel, rfl⟩ : ∃ n, fuel = n + 1 := ⟨fuel - 1, by simp at hf; omega⟩
    obtain ⟨r', turns, hrun, hb', hlen, h0⟩ :=
      @httpRxchar_spec hp a [10] r rest false hb hm hp0 hs (by simpa using hl)
    have h0 := h0.resolve_left fun h => List.cons_ne_nil _ _ h.1
    refine ⟨r', turns, ?_, hb', by simpa using hlen, by rw [h0]; rfl⟩
    have hlast : (hp.taken a [10] r' rest turns).mem.getD
        ((hp.taken a [10] r' rest turns).rxp - 1) 0 = 10 := by
      simp [Http.taken]
    rw [rxchunkLine, show httpRxchar hp 1 false = _ from hrun, ok_bind]
    simp only [hlast]
    rfl
  | cons c line ih =>
    intro fuel hp a r hno hf hb hm hp0 hs hl
    obtain ⟨fuel, rfl⟩ : ∃ n, fuel = n + 1 := ⟨fuel - 1, by simp at hf; omega⟩
    have hc : c ≠ 10 := hno c List.mem_cons_self
    simp only [List.length_cons] at hf hl
    obtain ⟨r1, turns1, hrun, hb1, hlen1, h1⟩ :=
      @httpRxchar_spec hp a [c] r (line ++ 10 :: rest) false hb hm hp0 hs (by simp; omega)
    have hlen1 : r1.length + 1 = r.length := hlen1
    obtain ⟨r', turns, hrest, hb', hlen, h0⟩ :=
      ih fuel (hp.taken a [c] r1 (line ++ 10 :: rest) turns1) (a ++ [c]) r1
        (fun b hb => hno b (List.mem_cons_of_mem c hb)) (by omega) hb1 rfl
        (by simp [Http.taken]) rfl (by omega)
    refine ⟨r', turns, ?_, hb', by simp only [List.length_cons]; omega, h0⟩
    have hlast : (hp.taken a [c] r1 (line ++ 10 :: rest) turns1).mem.getD
        ((hp.taken a [c] r1 (line ++ 10 :: rest) turns1).rxp - 1) 0 = c := by
      simp [Http.taken]
    rw [rxchunkLine, show httpRxchar hp 1 false = _ from hrun, ok_bind]
    simp only [hlast, if_neg hc]
    rw [if_neg (by decide), hrest, taken_taken]
    rfl

/-- What `http_rxchunk` does behind the data. -/
def rxchunkEnd (hp : Http) (len : Int) : Res (Int × Http) := do
  let old := hp.rxp
  let (i, hp) ← httpRxchar hp 2 false
  if i < 0 then return (-1, hp)
  else if iscrlf (hp.mem.drop old) = 0 then hp.failed
  else return (len, { hp with rxp := old, mem := hp.mem.set old 0 })

/-- The data is read over the size line. -/
theorem rxchunkData_data {hp : Http} {a data r rest : Bytes} {len : Int}
    (hn : len.toNat = data.length) (hb : Benign hp.turns) (hm : hp.mem = a ++ r)
    (hs : hp.stream = data ++ rest) (hl : data.length < r.length) :
    ∃ r' turns, rxchunkData hp a.length len = rxchunkEnd (hp.taken a data r' rest turns) len ∧
      Benign turns ∧ r'.length + data.length = r.length := by
  obtain ⟨r', turns, hrun, hb', hlen, -⟩ :=
    @httpRxchar_spec { hp with rxp := a.length } a data r rest false hb hm rfl hs hl
  have hrun' : httpRxchar { hp with rxp := a.length } len false =
      .ok (1, hp.taken a data r' rest turns) := by
    rw [httpRxchar, hn]
    exact hrun
  refine ⟨r', turns, ?_, hb', hlen⟩
  rw [rxchunkData, hrun', ok_bind]
  rfl

theorem iscrlf_pair (e f : UInt8) (r : Bytes) : iscrlf (e :: f :: r) = iscrlf [e, f] := by
  by_cases he : e = 13
  · by_cases hf : f = 10
    · subst he hf
      rfl
    · simp [iscrlf, he, hf]
  · by_cases he : e = 10
    · subst he
      rfl
    · simp [iscrlf, *]

/-- The two bytes that stand where the line end is to be. -/
theorem rxchunkEnd_pair {hp : Http} {a r rest : Bytes} {e f : UInt8} {len : Int}
    (hb : Benign hp.turns) (hm : hp.mem = a ++ r) (hp0 : hp.rxp = a.length)
    (hs : hp.stream = e :: f :: rest) (hl : 2 < r.length) :
    ∃ r' turns, rxchunkEnd hp len =
        (if iscrlf [e, f] = 0 then (hp.taken a [e, f] r' rest turns).failed
        else .ok (len, hp.taken a [] (0 :: f :: r') rest turns)) ∧
      Benign turns ∧ r'.length + 2 = r.length := by
  obtain ⟨r', turns, hrun, hb', hlen, -⟩ :=
    @httpRxchar_spec hp a [e, f] r rest false hb hm hp0 hs hl
  have hdrop : (hp.taken a [e, f] r' rest turns).mem.drop hp.rxp = e :: f :: r' := by
    rw [hp0]
    show (a ++ [e, f] ++ r').drop a.length = _
    rw [List.append_assoc, List.drop_left]
    rfl
  have hset : (a ++ [e, f] ++ r').set a.length 0 = a ++ [] ++ 0 :: f :: r' := by
    rw [List.append_assoc, List.set_append_right _ _ (le_refl _), Nat.sub_self, List.append_nil]
    rfl
  refine ⟨r', turns, ?_, hb', hlen⟩
  rw [rxchunkEnd, show httpRxchar hp 2 false = _ from hrun, ok_bind]
  simp only [if_neg (by decide : ¬ (1 : Int) < 0), hdrop, iscrlf_pair e f r']
  split
  · rfl
  · simp only [Http.taken, hp0, hset]
    rfl

/-- The data is read over the size line, and the line end behind it is taken back. -/
theorem rxchunkData_spec {hp : Http} {a data r rest : Bytes} {e f : UInt8} {len : Int}
    (hn : len.toNat = data.length) (hb : Benign hp.turns) (hm : hp.mem = a ++ r)
    (hs : hp.stream = data ++ e :: f :: rest) (hend : iscrlf [e, f] ≠ 0)
    (hl : data.length + 2 < r.length) :
    ∃ r' turns, rxchunkData hp a.length len =
        .ok (len, hp.taken a data (0 :: r') rest turns) ∧
      Benign turns ∧ (0 :: r').length + data.length = r.length := by
  obtain ⟨r1, turns1, hrun1, hb1, hlen1⟩ := rxchunkData_data hn hb hm hs (by omega)
  obtain ⟨r2, turns2, hrun2, hb2, hlen2⟩ :=
    @rxchunkEnd_pair (hp.taken a data r1 (e :: f :: rest) turns1) (a ++ data) r1 rest e f len hb1
      rfl (by simp [Http.taken]) rfl (by omega)
  refine ⟨f :: r2, turns2, ?_, hb2, by simp only [List.length_cons]; omega⟩
  rw [hrun1, hrun2, if_neg hend, taken_taken, List.append_nil]

theorem length_chunkBytes (data : Bytes) :
    (chunkBytes data).length = (numeral 16 data.length).length + data.length + 4 := by
  simp only [chunkBytes, nl, List.length_append, List.length_cons, List.length_nil]
  omega

/-- A hexadecimal number has no line end in it, and no NUL. -/
theorem numeral_text {n : Nat} {b : UInt8} (h : b ∈ numeral 16 n) : b ≠ 10 ∧ b ≠ 0 := by
  have hd : ∀ d : Fin 16, xdigit d ≠ 10 ∧ xdigit d ≠ 0 := by decide
  obtain ⟨d, hlt, rfl⟩ := mem_numeral (by decide) h
  exact hd ⟨d, hlt⟩

/-- The length that `http_rxchunk` reads off a size line, unless it rejects it. -/
def chunkLen (line : Bytes) : Option Int :=
  let s := line.takeWhile (· ≠ 0)
  let (v, q) := strtoul 16 s
  if q.length = s.length ∨ q.head?.any (!islws ·) then none else some (toInt32 v)

/-- The line starts with a hexadecimal number, and blank or a line end is behind it. -/
def Announces (line : Bytes) (v : Nat) : Prop :=
  ∃ d b rest, line = d ++ b :: rest ∧ d ≠ [] ∧ (∀ c ∈ d, (digitIn 16 c).isSome) ∧ islws b ∧
    (digits 16 0 d).1 = v

theorem islws_spec : ∀ b : UInt8, islws b → digitIn 16 b = none ∧ b ≠ 0 ∧ b ≠ 120 ∧ b ≠ 88 := by
  decide +kernel

/-- A number that an `int` can hold is taken for what it is. -/
theorem Announces.chunkLen_eq {line : Bytes} {v : Nat} (h : Announces line v) (hv : v < 2 ^ 31) :
    chunkLen line = some (v : Int) := by
  obtain ⟨d, b, rest, rfl, hne, hd, hb, rfl⟩ := h
  obtain ⟨hbd, hb0, hbx⟩ := islws_spec b hb
  have hd0 : ∀ c ∈ d, decide (c ≠ 0) = true := by
    intro c hc
    refine decide_eq_true fun h0 => ?_
    have := hd c hc
    rw [h0] at this
    exact absurd this (by decide)
  have htake : (d ++ b :: rest).takeWhile (· ≠ 0) = d ++ b :: rest.takeWhile (· ≠ 0) := by
    rw [List.takeWhile_append_of_pos hd0, List.takeWhile_cons_of_pos (by simpa using hb0)]
  have hnum : strtoul 16 (d ++ b :: rest.takeWhile (· ≠ 0)) =
      ((digits 16 0 d).1, b :: rest.takeWhile (· ≠ 0)) := by
    refine strtoul_digits (by decide) (by decide) hne hd (fun c hc => ?_) (by omega)
    cases hc
    exact ⟨hbd, hbx⟩
  simp only [chunkLen, htake, hnum]
  rw [if_neg, toInt32_of_lt hv]
  rintro (h | h)
  · exact hne (List.eq_nil_of_length_eq_zero (by rw [List.length_append] at h; omega))
  · simp [hb] at h

theorem Announces.value {line : Bytes} {v : Nat} (h : Announces line v) :
    (digits 16 0 line).1 = v := by
  obtain ⟨d, b, rest, rfl, -, hd, hb, rfl⟩ := h
  have hr : (b :: rest).head?.bind (digitIn 16) = none := (islws_spec b hb).1
  rw [digits_append hd hr]

theorem chunkLen_lt {line : Bytes} {len : Int} (h : chunkLen line = some len) : len < 2 ^ 31 := by
  simp only [chunkLen] at h
  split at h
  · cases h
  · cases h
    exact toInt32_lt _

/-- `strtoul` does not get to the end of a line. -/
theorem strtoul_line {line : Bytes} (old : Nat) :
    let s := (line ++ [10]).takeWhile (· ≠ 0)
    old + (s.length - (strtoul 16 s).2.length) ≠ old + (line ++ [10]).length := by
  intro s h
  obtain ⟨p, hp, hlast⟩ := @strtoul_rest 16 (by decide) s
  have hlen := congrArg List.length hp
  rw [List.length_append] at hlen
  have hps : p <+: s := ⟨_, hp.symm⟩
  have hpre : p <+: line ++ [10] := hps.trans (List.takeWhile_prefix _)
  have hp' : p = line ++ [10] := hpre.eq_of_length (by omega)
  have := hlast 10 (by rw [hp', List.getLast?_concat])
  exact absurd this (by decide)

/-- The buffer is filled up to `a`, and a size line is next. -/
structure ChunkNext (hp : Http) (a r line next : Bytes) : Prop where
  turns : Benign hp.turns
  mem : hp.mem = a ++ r
  rxp : hp.rxp = a.length
  stream : hp.stream = line ++ next
  line : ∃ w, line = w ++ [10] ∧ ∀ b ∈ w, b ≠ 10

theorem takeWhile_nul (x y : Bytes) : (x ++ 0 :: y).takeWhile (· ≠ 0) = x.takeWhile (· ≠ 0) := by
  induction x with
  | nil => rfl
  | cons b x ih =>
    rw [List.cons_append, List.takeWhile_cons, List.takeWhile_cons, ih]

/-- The size line is read, and then comes the data. -/
theorem httpRxchunk_len {hp : Http} {a r line next : Bytes} (h : ChunkNext hp a r line next)
    (hroom : line.length < r.length) :
    ∃ r1 turns len, Benign turns ∧ (line ++ r1).length = r.length ∧
      httpRxchunk hp = (chunkLen line).elim
        (Http.failed { hp.taken a line r1 next turns with chunklen := len })
        (rxchunkData { hp.taken a line r1 next turns with chunklen := len } a.length) := by
  obtain ⟨w, rfl, hw⟩ := h.line
  have hs : hp.stream = w ++ 10 :: next := by rw [h.stream, List.append_assoc]; rfl
  obtain ⟨r1, turns1, hline, hb1, hlen1, h1⟩ :=
    rxchunkLine_spec w (hp.stream.length + 1) hp a r hw (by rw [hs]; simp) h.turns h.mem h.rxp hs
      (by simpa using hroom)
  obtain ⟨r1, rfl⟩ := List.head?_eq_some_iff.mp h1
  have hcstr : cstr (a ++ (w ++ [10]) ++ 0 :: r1) a.length = (w ++ [10]).takeWhile (· ≠ 0) := by
    rw [List.append_assoc, cstr_at, takeWhile_nul]
  have hnot := @strtoul_line w a.length
  refine ⟨0 :: r1, turns1,
    decimalInt (toInt32 (strtoul 16 ((w ++ [10]).takeWhile (· ≠ 0))).1), hb1, ?_, ?_⟩
  · simp at hlen1 ⊢
    omega
  · rw [httpRxchunk, hline, ok_bind]
    simp only [if_neg (by decide : ¬ (1 : Int) < 0), Http.taken, h.rxp, hcstr, chunkLen]
    by_cases hc : (strtoul 16 ((w ++ [10]).takeWhile (· ≠ 0))).2.length =
        ((w ++ [10]).takeWhile (· ≠ 0)).length ∨
        (strtoul 16 ((w ++ [10]).takeWhile (· ≠ 0))).2.head?.any (!islws ·)
    · rw [if_pos hc, if_pos (hc.imp_right .inr)]
      rfl
    · rw [if_neg hc, if_neg]
      · rfl
      · rintro (h | h | h)
        · exact hc (.inl h)
        · exact hnot h
        · exact hc (.inr h)

/-- One chunk is taken off the connection: its data is appended to the buffer, and nothing else
remains of it. -/
theorem httpRxchunk_announced {hp : Http} {a data line r rest : Bytes}
    (h : ChunkNext hp a r line (data ++ (nl ++ rest))) (hann : Announces line data.length)
    (h31 : data.length < 2 ^ 31) (hline : line.length < r.length)
    (hdata : data.length + 2 < r.length) :
    ∃ r' turns len, httpRxchunk hp =
        .ok (data.length, { hp.taken a data (0 :: r') rest turns with chunklen := len }) ∧
      Benign turns ∧ (0 :: r').length + data.length = r.length := by
  obtain ⟨r1, turns1, len, hb1, hlen1, hrun⟩ := httpRxchunk_len h hline
  rw [hann.chunkLen_eq h31, Option.elim_some] at hrun
  obtain ⟨r2, turns2, hdat, hb2, hlen2⟩ :=
    @rxchunkData_spec { hp.taken a line r1 (data ++ (nl ++ rest)) turns1 with chunklen := len } a
      data (line ++ r1) rest 13 10 data.length rfl hb1 (List.append_assoc _ _ _) rfl (by decide)
      (by omega)
  exact ⟨r2, turns2, len, hrun.trans hdat, hb2, by omega⟩

theorem announces_numeral (n : Nat) : Announces (numeral 16 n ++ nl) n := by
  refine ⟨numeral 16 n, 13, [10], rfl, ?_, fun c hc => ?_, rfl, ?_⟩
  · obtain ⟨d, t, -, -, ht⟩ := @numeral_head 16 (by decide) n
    rw [ht]
    exact List.cons_ne_nil _ _
  · obtain ⟨d, hd, rfl⟩ := mem_numeral (by decide) hc
    rw [digitIn_xdigit (Nat.le_refl 16) hd]
    rfl
  · rw [digits_numeral (by decide) (Nat.le_refl 16)]

/-- A chunk that the commands send. -/
theorem httpRxchunk_spec {hp : Http} {a data r rest : Bytes} (hb : Benign hp.turns)
    (hm : hp.mem = a ++ r) (hp0 : hp.rxp = a.length) (hs : hp.stream = chunkBytes data ++ rest)
    (hl : (chunkBytes data).length < r.length) (h31 : data.length < 2 ^ 31) :
    ∃ r' turns len, httpRxchunk hp =
        .ok (data.length, { hp.taken a data (0 :: r') rest turns with chunklen := len }) ∧
      Benign turns ∧ (0 :: r').length + data.length = r.length := by
  rw [length_chunkBytes] at hl
  refine httpRxchunk_announced ⟨hb, hm, hp0, ?_, numeral 16 data.length ++ [13], ?_, ?_⟩
    (announces_numeral data.length) h31 ?_ (by omega)
  · simp [hs, chunkBytes]
  · simp [nl]
  · intro b hb
    rcases List.mem_append.mp hb with hb | hb
    · exact (numeral_text hb).1
    · rw [List.mem_singleton.mp hb]
      decide
  · simp only [nl, List.length_append, List.length_cons, List.length_nil]
    omega

/-- A turn of the loop that got a chunk: `ll` is all that was received since the loop began, and the
loop goes on unless that reaches the limit. -/
theorem swallowChunks_turn {hp hp1 : Http} {body l m n : Nat} {i : Nat} (hi : 0 < i)
    (hrun : httpRxchunk hp = .ok ((i : Int), hp1)) (hn : hp1.rxp = body + l + n) (fuel : Nat)
    (ll : Int) : swallowChunks body l m (fuel + 1) hp ll =
      if m ≠ 0 ∧ m ≤ n then .ok ((n : Int), hp1) else swallowChunks body l m fuel hp1 n := by
  have hll : (hp1.rxp : Int) - (body : Int) - (l : Int) = n := by omega
  rw [swallowChunks, hrun, ok_bind]
  dsimp only
  rw [if_neg (by omega : ¬(i : Int) ≤ 0), hll]
  by_cases hreach : m ≠ 0 ∧ m ≤ n
  · rw [if_pos hreach, if_pos (by omega)]
    rfl
  · rw [if_neg hreach, if_neg (by omega)]

/-- Chunks up to the empty one: their data comes to stand behind `done`, the data of the chunks
before them. -/
theorem swallowChunks_spec {h rest : Bytes} : ∀ (ds : List Bytes) (fuel : Nat) (hp : Http)
    (done r : Bytes), (∀ d ∈ ds, d ≠ []) → ds.length < fuel → Benign hp.turns →
    hp.mem = h ++ done ++ r → hp.rxp = (h ++ done).length →
    hp.stream = ds.flatMap chunkBytes ++ (chunkBytes [] ++ rest) →
    (ds.flatMap chunkBytes ++ chunkBytes []).length < r.length → r.length < 2 ^ 31 →
    ∃ r' turns len, swallowChunks h.length 0 0 fuel hp done.length =
      .ok ((done ++ ds.flatten).length,
        { hp.taken (h ++ done) ds.flatten (0 :: r') rest turns with chunklen := len }) := by
  intro ds
  induction ds with
  | nil =>
    intro fuel hp done r _ hf hb hm hp0 hs hl h31
    obtain ⟨fuel, rfl⟩ : ∃ n, fuel = n + 1 := ⟨fuel - 1, by simp at hf; omega⟩
    obtain ⟨r', turns, len, hrun, -⟩ :=
      @httpRxchunk_spec hp (h ++ done) [] r rest hb hm hp0 hs hl (by simp)
    refine ⟨r', turns, len, ?_⟩
    rw [swallowChunks, hrun, ok_bind]
    simp
  | cons d ds ih =>
    intro fuel hp done r hne hf hb hm hp0 hs hl h31
    obtain ⟨fuel, rfl⟩ : ∃ n, fuel = n + 1 := ⟨fuel - 1, by simp at hf; omega⟩
    simp only [List.flatMap_cons, List.append_assoc] at hs hl
    rw [List.length_append] at hl
    have hdlen := length_chunkBytes d
    obtain ⟨r1, turns1, len1, hrun, hb1, hlen1⟩ :=
      httpRxchunk_spec hb hm hp0 hs (by omega) (by omega)
    have hpos : 0 < d.length := List.length_pos_iff.mpr (hne d List.mem_cons_self)
    obtain ⟨r', turns, len, hrest⟩ :=
      ih fuel { hp.taken (h ++ done) d (0 :: r1) (ds.flatMap chunkBytes ++ (chunkBytes [] ++ rest))
          turns1 with chunklen := len1 } (done ++ d) (0 :: r1)
        (fun x hx => hne x (List.mem_cons_of_mem d hx)) (by simp at hf; omega) hb1
        (by simp [Http.taken]) (by simp [Http.taken, Nat.add_assoc]) rfl (by omega) (by omega)
    refine ⟨r', turns, len, ?_⟩
    have hturn := @swallowChunks_turn hp _ h.length 0 0 (done ++ d).length d.length hpos hrun
      (by simp [Http.taken, Nat.add_assoc]) fuel done.length
    rw [if_neg (by simp)] at hturn
    refine hturn.trans (hrest.trans ?_)
    simp [Http.taken, List.append_assoc, Nat.add_assoc]

/-! ## The commands that send a body -/

inductive ChunkCmd where
  | chunked (s : Bytes)
  | chunkedlen (arg : Bytes)

namespace ChunkCmd

/-- What the command writes. -/
def sent : ChunkCmd → Bytes
  | chunked s => cmdHttpChunked s
  | chunkedlen arg => cmdHttpChunkedlen arg

/-- The chunk that the command is to send. -/
def data : ChunkCmd → Bytes
  | chunked s => s
  | chunkedlen arg => pattern (atoi arg).toNat

/-- A string that is not empty, or a positive length. -/
def Ok : ChunkCmd → Prop
  | chunked s => s ≠ [] ∧ ∀ b ∈ s, b ≠ 0
  | chunkedlen arg => 0 < atoi arg

def IsLen : ChunkCmd → Prop
  | chunked _ => False
  | chunkedlen _ => True

theorem sent_eq {c : ChunkCmd} (h : c.Ok) : c.sent = chunkBytes c.data := by
  cases c with
  | chunked s => exact cmdHttpChunked_eq s
  | chunkedlen arg =>
    have hpos : 0 < atoi arg := h
    have hlt : atoi arg < 2 ^ 31 := toInt32_lt _
    have hlen : chunkedlenLen arg = (atoi arg).toNat := by
      rw [chunkedlenLen, Int.emod_eq_of_lt (by omega) (by omega)]
    rw [sent, cmdHttpChunkedlen_eq, hlen, data]

theorem data_ne_nil {c : ChunkCmd} (h : c.Ok) : c.data ≠ [] := by
  cases c with
  | chunked s => exact h.1
  | chunkedlen arg =>
    have hpos : 0 < atoi arg := h
    rw [data, ← List.length_pos_iff, length_pattern]
    omega

theorem data_text {c : ChunkCmd} (h : c.Ok) : ∀ b ∈ c.data, b ≠ 0 := by
  cases c with
  | chunked s => exact h.2
  | chunkedlen arg =>
    have hd : ∀ d : Fin 8, digit d ≠ 0 := by decide
    intro b hb
    obtain ⟨d, hlt, rfl⟩ := mem_pattern hb
    exact hd ⟨d, hlt⟩

end ChunkCmd

/-- The body that the commands are to send. -/
def bodyOf (cs : List ChunkCmd) : Bytes := (cs.map ChunkCmd.data).flatten

/-- Patterns one after the other are a pattern, if all but the last are whole rounds of it. -/
theorem bodyOf_pattern (cs : List ChunkCmd) (hlen : ∀ c ∈ cs, c.IsLen)
    (h8 : ∀ c ∈ cs.dropLast, 8 ∣ c.data.length) : bodyOf cs = pattern (bodyOf cs).length := by
  induction cs with
  | nil => rfl
  | cons c cs ih =>
    have hc : ∃ n, c.data = pattern n := by
      cases c with
      | chunked s => exact (hlen _ List.mem_cons_self).elim
      | chunkedlen arg => exact ⟨_, rfl⟩
    obtain ⟨n, hn⟩ := hc
    cases cs with
    | nil =>
      simp [bodyOf, hn]
    | cons c' cs =>
      have hcn : 8 ∣ c.data.length := h8 c (by simp)
      have ih := ih (fun x hx => hlen x (List.mem_cons_of_mem c hx))
        (fun x hx => h8 x (by simp [hx]))
      rw [hn, length_pattern] at hcn
      have hcons : bodyOf (c :: c' :: cs) = pattern n ++ bodyOf (c' :: cs) := by
        rw [← hn]
        rfl
      rw [hcons, List.length_append, length_pattern, pattern_add hcn, ← ih]

theorem wire_eq {cs : List ChunkCmd} (h : ∀ c ∈ cs, c.Ok) :
    cs.flatMap ChunkCmd.sent = (cs.map ChunkCmd.data).flatMap chunkBytes := by
  rw [List.flatMap_map]
  exact List.flatMap_congr fun c hc => ChunkCmd.sent_eq (h c hc)

/-! ## The whole body -/

/-- A header has been received, and its body is next and chunked. -/
structure Http.ChunkedNext (hp : Http) : Prop where
  mem : hp.mem.length = nrxbuf
  body : hp.body = some hp.rxp
  te : ∃ p, httpFindHeader hp.lines (ascii "transfer-encoding") = some p ∧
    p.map lower = ascii "chunked"
  cl : httpFindHeader hp.lines (ascii "content-length") = none

/-- `http_rxhdr` and `http_splitheader`, as the receiving commands call them. -/
def rxHeader (hp : Http) : Res Http := do
  let hp ← httpRxhdr hp
  let (mem, hh) ← httpSplitheader hp.mem
  return { hp with mem := mem, resp := hh }

/-- A well-formed header is received and cut, and its body is next. -/
theorem rxHeader_spec {r : Resp} (hw : r.Wf) (hlines : r.lines.length ≤ 60) {hp : Http}
    {rest : Bytes} (hs : hp.stream = r.head ++ rest) (hb : Benign hp.turns)
    (hm : hp.mem.length = nrxbuf) (hl : r.head.length < nrxbuf) :
    ∃ j turns, rxHeader hp = .ok
        { hp with
          mem := r.cut ++ nl ++ 0 :: j, rxp := r.head.length, body := some r.head.length,
          bodylen := undef, resp := r.fields, stream := rest, turns := turns } ∧
      Benign turns ∧ (r.cut ++ nl ++ 0 :: j).length = nrxbuf := by
  obtain ⟨j, turns, hrx, hb1, hlen1, -⟩ := httpRxhdr_spec (Resp.endsAt_head hw) hb hs (by omega)
  have hcut := r.length_cut
  refine ⟨j, turns, ?_, hb1, ?_⟩
  · rw [rxHeader, hrx, ok_bind, httpSplitheader_spec hw hlines]
    rfl
  · simp only [List.length_append] at hlen1 hcut ⊢
    omega

/-- A well-formed header that announces chunks, and no length, is received with its body next. -/
theorem rxHeader_chunkedNext {r : Resp} (hw : r.Wf) (hlines : r.lines.length ≤ 60)
    (te : ∃ p, httpFindHeader r.lines (ascii "transfer-encoding") = some p ∧
      p.map lower = ascii "chunked")
    (cl : httpFindHeader r.lines (ascii "content-length") = none) {hp : Http} {rest : Bytes}
    (hs : hp.stream = r.head ++ rest) (hb : Benign hp.turns) (hm : hp.mem.length = nrxbuf)
    (hl : r.head.length < nrxbuf) :
    ∃ hp', rxHeader hp = .ok hp' ∧ hp'.ChunkedNext ∧ hp'.stream = rest ∧
      hp'.rxp = r.head.length ∧ Benign hp'.turns := by
  obtain ⟨j, turns, hrx, hb1, hlen⟩ := rxHeader_spec hw hlines hs hb hm hl
  refine ⟨_, hrx, ⟨hlen, rfl, ?_, ?_⟩, rfl, rfl, hb1⟩
  · rw [lines_spec hw (List.append_assoc _ _ _) rfl]
    exact te
  · rw [lines_spec hw (List.append_assoc _ _ _) rfl]
    exact cl

/-- With such a header, `http_swallow_body` is its loop over the chunks. -/
theorem Http.ChunkedNext.swallow {hp : Http} (h : hp.ChunkedNext) (hasBody : Bool) :
    httpSwallowBody hp hasBody 0 = (do
      let (ll, hp) ← swallowChunks hp.rxp 0 0 (hp.stream.length + 1) hp 0
      return hp.setBodylen (0 + ll)) := by
  obtain ⟨p, hp1, hp2⟩ := h.te
  rw [httpSwallowBody, h.body]
  simp only [hp1, Option.any_some, hp2, decide_true, if_true, h.cl, Option.isSome_none,
    Bool.false_eq_true, if_false, Int.sub_self]

theorem length_le_flatMap_chunkBytes (ds : List Bytes) :
    ds.length ≤ (ds.flatMap chunkBytes).length := by
  induction ds with
  | nil => simp
  | cons d ds ih =>
    have := length_chunkBytes d
    rw [List.flatMap_cons, List.length_append, List.length_cons]
    omega

/-- What the chunks carry arrives as the body, the connection stands behind the last chunk, and
`expect_pattern` accepts a body that `chunkedlen` has sent in whole rounds of its pattern. -/
theorem chunked_body_survives {hp : Http} {cs : List ChunkCmd} {zero rest : Bytes} (hasBody : Bool)
    (hn : hp.ChunkedNext) (hb : Benign hp.turns) (hok : ∀ c ∈ cs, c.Ok) (hz : atoi zero = 0)
    (hs : hp.stream = cs.flatMap ChunkCmd.sent ++ cmdHttpChunkedlen zero ++ rest)
    (hroom : hp.rxp + (cs.flatMap ChunkCmd.sent ++ cmdHttpChunkedlen zero).length < nrxbuf) :
    ∃ hp', httpSwallowBody hp hasBody 0 = .ok hp' ∧
      hp'.body = some hp.rxp ∧ cstr hp'.mem hp.rxp = bodyOf cs ∧
      hp'.bodyl = (bodyOf cs).length ∧ hp'.bodylen = decimal (bodyOf cs).length ∧
      hp'.stream = rest ∧
      ((∀ c ∈ cs, c.IsLen) → (∀ c ∈ cs.dropLast, 8 ∣ c.data.length) →
        cmdHttpExpectPattern hp' = .ok ()) := by
  have hz0 : chunkedlenLen zero = 0 := by rw [chunkedlenLen, hz]; rfl
  have hlast : cmdHttpChunkedlen zero = chunkBytes [] := by rw [cmdHttpChunkedlen_eq, hz0]; rfl
  rw [wire_eq hok, hlast] at hs hroom
  have hmem := hn.mem
  have hle := length_le_flatMap_chunkBytes (cs.map ChunkCmd.data)
  have h31 : nrxbuf < 2 ^ 31 := by decide
  have hcut : hp.mem = hp.mem.take hp.rxp ++ [] ++ hp.mem.drop hp.rxp := by simp
  have hlen : (hp.mem.take hp.rxp).length = hp.rxp := by
    rw [List.length_take]
    omega
  obtain ⟨r, turns, len, hrun⟩ :=
    swallowChunks_spec (cs.map ChunkCmd.data) (hp.stream.length + 1) hp [] (hp.mem.drop hp.rxp)
      (fun d hd => by
        obtain ⟨c, hc, rfl⟩ := List.mem_map.mp hd
        exact ChunkCmd.data_ne_nil (hok c hc))
      (by rw [hs]; simp only [List.length_append] at hle ⊢; omega) hb hcut (by simp [hlen])
      (by rw [hs, List.append_assoc]) (by rw [List.length_drop]; omega)
      (by rw [List.length_drop]; omega)
  rw [hlen, List.append_nil] at hrun
  have hcstr : cstr (hp.mem.take hp.rxp ++ (bodyOf cs ++ 0 :: r)) hp.rxp = bodyOf cs := by
    have := @cstr_append (hp.mem.take hp.rxp) (bodyOf cs) r (fun b hb => by
      obtain ⟨d, hd, hbd⟩ := List.mem_flatten.mp hb
      obtain ⟨c, hc, rfl⟩ := List.mem_map.mp hd
      exact ChunkCmd.data_text (hok c hc) b hbd)
    rwa [hlen] at this
  rw [← List.append_assoc] at hcstr
  let hp' : Http :=
    Http.setBodylen { hp.taken (hp.mem.take hp.rxp) (bodyOf cs) (0 :: r) rest turns with
      chunklen := len } (bodyOf cs).length
  have hbody : hp'.body = some hp.rxp := hn.body
  refine ⟨hp', (hn.swallow hasBody).trans ?_, hbody, hcstr, rfl, decimalInt_ofNat _, rfl, ?_⟩
  · rw [show swallowChunks _ 0 0 _ hp 0 = _ from hrun, ok_bind]
    simp [bodyOf, hp']
  · intro hl h8
    rw [cmdHttpExpectPattern, hbody]
    show expectPatternLoop 48 (cstr hp'.mem hp.rxp) = .ok ()
    rw [show cstr hp'.mem hp.rxp = bodyOf cs from hcstr, bodyOf_pattern cs hl h8]
    exact expectPatternLoop_ok _

/-- A header that announces chunks. -/
def chunkedHead : Resp where
  proto := ascii "HTTP/1.1"
  status := ascii "200"
  reason := ascii "OK"
  lines := [ascii "Transfer-Encoding: chunked"]
  body := []

theorem chunkedHead_wf : chunkedHead.Wf where
  proto := by unfold Word; decide +kernel
  status := by unfold Word; decide +kernel
  reason := by unfold Printable; decide +kernel
  reason_head := by decide +kernel
  lines := by unfold Printable; decide +kernel

/-- A connection that hands out this header, and then chunks of 8 and 3 bytes, in parts. -/
def chunkedConn : Http where
  mem := List.replicate nrxbuf 0
  turns := [.part 3, .eintr, .part 0]
  stream := chunkedHead.head ++ (cmdHttpChunkedlen (ascii "8") ++ cmdHttpChunkedlen (ascii "3") ++
    cmdHttpChunkedlen (ascii "0") ++ ascii "next")

theorem chunked_body_survives_two :
    ∃ hp hp', rxHeader chunkedConn = .ok hp ∧ httpSwallowBody hp true 0 = .ok hp' ∧
      cstr hp'.mem hp.rxp = ascii "01234567012" ∧ hp'.bodyl = 11 ∧ hp'.stream = ascii "next" ∧
      cmdHttpExpectPattern hp' = .ok () := by
  let cs : List ChunkCmd := [.chunkedlen (ascii "8"), .chunkedlen (ascii "3")]
  have hok : ∀ c ∈ cs, c.Ok := by
    simp only [cs, List.mem_cons, List.not_mem_nil, or_false, forall_eq_or_imp, forall_eq,
      ChunkCmd.Ok]
    decide
  have hbody : bodyOf cs = ascii "01234567012" := by decide
  have hhead : chunkedHead.head.length = 47 := by decide +kernel
  have hturns : Benign chunkedConn.turns := by
    intro t ht
    rcases List.mem_cons.mp ht with rfl | ht
    · exact .inr ⟨3, rfl⟩
    · rcases List.mem_pair.mp ht with rfl | rfl
      · exact .inl rfl
      · exact .inr ⟨0, rfl⟩
  obtain ⟨hp, hrx, hnext, hs, hrxp, hb⟩ :=
    rxHeader_chunkedNext chunkedHead_wf (by decide) ⟨ascii "chunked", by decide +kernel, by decide⟩
      (by decide +kernel) (show chunkedConn.stream = _ from rfl) hturns List.length_replicate
      (by rw [hhead]; decide)
  have hwire : cs.flatMap ChunkCmd.sent =
      cmdHttpChunkedlen (ascii "8") ++ cmdHttpChunkedlen (ascii "3") := by
    simp [cs, ChunkCmd.sent]
  rw [← hwire] at hs
  obtain ⟨hp', hrun, -, hcstr, hl, -, hrest, hpat⟩ :=
    chunked_body_survives true hnext hb hok (by decide) hs
      (by rw [hrxp, hhead, wire_eq hok, cmdHttpChunkedlen_eq]; decide)
  refine ⟨hp, hp', hrx, hrun, hcstr.trans hbody, ?_, hrest, hpat ?_ ?_⟩
  · rw [hl, hbody]
    decide
  · simp [cs, ChunkCmd.IsLen]
  · simp only [cs, List.dropLast_cons_cons, List.dropLast_singleton, List.mem_singleton, forall_eq,
      ChunkCmd.data, length_pattern]
    decide

end Http1
end VTest
