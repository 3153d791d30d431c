import VTest.Lib.Run
import VTest.Http1.Chunk

/-!
# VTest.Http1.Piecewise

A body that is received in parts, with `rxrespbody -max`.

* `Left` is what of a body is still on the connection, in each of its three framings, and
  `Left.next` what one call takes off it.
* `Mid.call`: between two calls the header, the part that has been received and the rest of the
  connection are all there is to say, and a call moves bytes from the rest to the part.
* `body_piecewise`: whatever the limits, the parts make up the body that one call without a limit
  receives.
-/

namespace VTest
namespace Http1

/-! ## The command -/

/-- The arguments of `rxrespbody`, with `max`. -/
def rxrespbodyMax : List Bytes → Int → Res Int
  | [], max => .ok max
  | [a], _ => .error (if a = ascii "-max" then .ub else .fatal)
  | a :: v :: av, _ => if a = ascii "-max" then rxrespbodyMax av (atoi v) else .error .fatal

def cmdHttpRxrespbody (hp : Http) (av : List Bytes) : Res Http := do
  let max ← rxrespbodyMax av 0
  httpSwallowBody hp true max

theorem cmdHttpRxrespbody_max (hp : Http) {m : Nat} (h : m < 2 ^ 31) :
    cmdHttpRxrespbody hp [ascii "-max", decimal m] = httpSwallowBody hp true m := by
  rw [cmdHttpRxrespbody, rxrespbodyMax, if_pos rfl, atoi_decimal h]
  rfl

/-! ## What is left of a body -/

/-- A chunk on the connection: its size line, and its data. -/
structure Chunk where
  line : Bytes
  data : Bytes

namespace Chunk

def bytes (c : Chunk) : Bytes := c.line ++ (c.data ++ nl)

/-- The size line is a line, and announces the data. -/
structure Ok (c : Chunk) : Prop where
  line : ∃ w, c.line = w ++ [10] ∧ ∀ b ∈ w, b ≠ 10
  size : Announces c.line c.data.length

/-- The size line is read into the place of the data, and so is the line end behind the data. -/
def Fits (c : Chunk) (room : Nat) : Prop := c.line.length < room ∧ c.data.length + 2 < room

end Chunk

/-- Chunk after chunk, each behind the data of those before it. -/
def FitAll : Nat → List Chunk → Prop
  | _, [] => True
  | room, c :: cs => c.Fits room ∧ FitAll (room - c.data.length) cs

/-- What is still on the connection: the rest of a body of known length and what comes after it, of
one that ends with the connection, or of a chunked one with its last chunk `zero`; or a chunked body
has ended. -/
inductive Left where
  | length (d rest : Bytes)
  | close (d : Bytes)
  | chunks (cs : List Chunk) (zero : Chunk) (rest : Bytes)
  | ended (rest : Bytes)

namespace Left

def stream : Left → Bytes
  | length d rest => d ++ rest
  | close d => d
  | chunks cs zero rest => cs.flatMap Chunk.bytes ++ (zero.bytes ++ rest)
  | ended rest => rest

def data : Left → Bytes
  | length d _ => d
  | close d => d
  | chunks cs _ _ => cs.flatMap Chunk.data
  | ended _ => []

def Ended : Left → Prop
  | ended _ => True
  | _ => False

/-- The chunks are well formed, and the last one is the empty one. -/
def Ok : Left → Prop
  | chunks cs zero _ => (∀ c ∈ cs, c.Ok ∧ c.data ≠ []) ∧ zero.Ok ∧ zero.data = []
  | _ => True

/-- There is room for it in the buffer. A body that ends with the connection takes one more byte, as
`http_rxchar` asks for one to see the end. -/
def Fits (room : Nat) : Left → Prop
  | length d _ => d.length < room
  | close d => d.length + 1 < room
  | chunks cs zero _ => FitAll room (cs ++ [zero])
  | ended _ => True

/-- The header lines say how the body is framed; `n` bytes of it have been received. -/
def Framed (ls : List Bytes) (n : Nat) : Left → Prop
  | length d _ =>
    (httpFindHeader ls (ascii "transfer-encoding")).any (·.map lower = ascii "chunked") = false ∧
      ∃ q, httpFindHeader ls (ascii "content-length") = some q ∧
        (strtoul 10 q).1 = n + d.length ∧ n + d.length < 2 ^ 31
  | close _ =>
    (httpFindHeader ls (ascii "transfer-encoding")).any (·.map lower = ascii "chunked") = false ∧
      httpFindHeader ls (ascii "content-length") = none
  | _ =>
    (httpFindHeader ls (ascii "transfer-encoding")).any (·.map lower = ascii "chunked") = true ∧
      httpFindHeader ls (ascii "content-length") = none

end Left

/-- How many bytes a call asks for, of `n` that are left. -/
def limit (m n : Nat) : Nat := if m = 0 then n else m

/-- The chunks that a call takes when `got` bytes are there: their data, and what is left. -/
def chunkRun (m : Nat) (zero : Chunk) (rest : Bytes) : Nat → List Chunk → Bytes × Left
  | _, [] => ([], .ended rest)
  | got, c :: cs =>
    if m ≠ 0 ∧ m ≤ got + c.data.length then (c.data, .chunks cs zero rest)
    else
      let (d, left) := chunkRun m zero rest (got + c.data.length) cs
      (c.data ++ d, left)

/-- What a call with limit `m` takes, where 0 is no limit, and what it leaves. -/
def Left.next (m : Nat) : Left → Bytes × Left
  | length d rest => (d.take (limit m d.length), .length (d.drop (limit m d.length)) rest)
  | close d => (d.take (limit m d.length), .close (d.drop (limit m d.length)))
  | chunks cs zero rest => chunkRun m zero rest 0 cs
  | ended rest => ([], .ended rest)

/-- What a limited call is to take: the bytes up to the limit or up to the end, or the shortest run
of chunks that reaches the limit, or all chunks if they do not. -/
inductive Piece (m : Nat) : Left → Bytes → Left → Prop where
  | length (d rest : Bytes) : Piece m (.length d rest) (d.take m) (.length (d.drop m) rest)
  | close (d : Bytes) : Piece m (.close d) (d.take m) (.close (d.drop m))
  | run (cs cs' : List Chunk) (zero : Chunk) (rest : Bytes)
      (reached : m ≤ (cs.flatMap Chunk.data).length)
      (shortest : (cs.dropLast.flatMap Chunk.data).length < m) :
      Piece m (.chunks (cs ++ cs') zero rest) (cs.flatMap Chunk.data) (.chunks cs' zero rest)
  | all (cs : List Chunk) (zero : Chunk) (rest : Bytes)
      (short : (cs.flatMap Chunk.data).length < m) :
      Piece m (.chunks cs zero rest) (cs.flatMap Chunk.data) (.ended rest)

theorem chunkRun_spec {m : Nat} (hm : 0 < m) (zero : Chunk) (rest : Bytes) :
    ∀ (cs : List Chunk) (got : Nat), got < m →
      (∃ cs1 cs2, cs = cs1 ++ cs2 ∧
        chunkRun m zero rest got cs = (cs1.flatMap Chunk.data, .chunks cs2 zero rest) ∧
        m ≤ got + (cs1.flatMap Chunk.data).length ∧
        got + (cs1.dropLast.flatMap Chunk.data).length < m) ∨
      chunkRun m zero rest got cs = (cs.flatMap Chunk.data, .ended rest) ∧
        got + (cs.flatMap Chunk.data).length < m := by
  intro cs
  induction cs with
  | nil =>
    intro got hgot
    exact .inr ⟨rfl, by simpa using hgot⟩
  | cons c cs ih =>
    intro got hgot
    by_cases hreach : m ≤ got + c.data.length
    · refine .inl ⟨[c], cs, rfl, ?_, by simpa using hreach, by simpa using hgot⟩
      rw [chunkRun, if_pos ⟨by omega, hreach⟩]
      simp
    · have hrun : chunkRun m zero rest got (c :: cs) =
          (c.data ++ (chunkRun m zero rest (got + c.data.length) cs).1,
            (chunkRun m zero rest (got + c.data.length) cs).2) := by
        rw [chunkRun, if_neg fun h => hreach h.2]
      rcases ih (got + c.data.length) (by omega) with ⟨cs1, cs2, rfl, hr, h1, h2⟩ | ⟨hr, h1⟩
      · refine .inl ⟨c :: cs1, cs2, rfl, by rw [hrun, hr]; rfl, ?_, ?_⟩
        · simp only [List.flatMap_cons, List.length_append]
          omega
        · cases cs1 with
          | nil => simp at h1; omega
          | cons c1 cs1 =>
            simp only [List.dropLast_cons_cons, List.flatMap_cons, List.length_append] at h2 ⊢
            omega
      · refine .inr ⟨by rw [hrun, hr]; rfl, ?_⟩
        simp only [List.flatMap_cons, List.length_append]
        omega

/-- A limited call takes what it is to take. -/
theorem Left.next_piece {m : Nat} (hm : 0 < m) {left : Left} (hne : ¬left.Ended) :
    Piece m left (left.next m).1 (left.next m).2 := by
  cases left with
  | length d rest =>
    simp only [Left.next, limit, if_neg (by omega : ¬ m = 0)]
    exact .length d rest
  | close d =>
    simp only [Left.next, limit, if_neg (by omega : ¬ m = 0)]
    exact .close d
  | chunks cs zero rest =>
    rw [Left.next]
    rcases chunkRun_spec hm zero rest cs 0 hm with ⟨cs1, cs2, rfl, hr, h1, h2⟩ | ⟨hr, h1⟩
    · rw [hr]
      exact .run cs1 cs2 zero rest (by omega) (by omega)
    · rw [hr]
      exact .all cs zero rest (by omega)
  | ended rest => exact absurd trivial hne

theorem chunkRun_data (m : Nat) (zero : Chunk) (rest : Bytes) : ∀ (cs : List Chunk) (got : Nat),
    (chunkRun m zero rest got cs).1 ++ (chunkRun m zero rest got cs).2.data =
      cs.flatMap Chunk.data := by
  intro cs
  induction cs with
  | nil => intro got; rfl
  | cons c cs ih =>
    intro got
    rw [chunkRun]
    split
    · rfl
    · simp only [List.append_assoc, ih, List.flatMap_cons]

/-- Nothing is lost: what a call takes and what it leaves make up what was left. -/
theorem Left.next_data (m : Nat) (left : Left) :
    (left.next m).1 ++ (left.next m).2.data = left.data := by
  cases left with
  | length d rest => exact List.take_append_drop _ _
  | close d => exact List.take_append_drop _ _
  | chunks cs zero rest => exact chunkRun_data m zero rest cs 0
  | ended rest => rfl

theorem chunkRun_zero (zero : Chunk) (rest : Bytes) : ∀ (cs : List Chunk) (got : Nat),
    chunkRun 0 zero rest got cs = (cs.flatMap Chunk.data, .ended rest) := by
  intro cs
  induction cs with
  | nil => intro got; rfl
  | cons c cs ih =>
    intro got
    rw [chunkRun, if_neg (by simp), ih]
    rfl

/-- Without a limit, all is taken. -/
theorem Left.next_zero (left : Left) : (left.next 0).1 = left.data := by
  cases left with
  | length d rest => simp [Left.next, limit, Left.data]
  | close d => simp [Left.next, limit, Left.data]
  | chunks cs zero rest => rw [Left.next, chunkRun_zero]; rfl
  | ended rest => rfl

/-! ## One call -/

/-- A chunk of the list is taken off the connection. -/
theorem httpRxchunk_chunk {hp : Http} {a r rest : Bytes} {c : Chunk} (hc : c.Ok)
    (hb : Benign hp.turns) (hm : hp.mem = a ++ r) (hp0 : hp.rxp = a.length)
    (hs : hp.stream = c.bytes ++ rest) (hfit : c.Fits r.length) (h31 : r.length < 2 ^ 31) :
    ∃ r' turns len, httpRxchunk hp =
        .ok (c.data.length, { hp.taken a c.data (0 :: r') rest turns with chunklen := len }) ∧
      Benign turns ∧ (0 :: r').length + c.data.length = r.length := by
  have hlen := hfit.2
  refine httpRxchunk_announced ⟨hb, hm, hp0, ?_, hc.line⟩ hc.size (by omega) hfit.1 hfit.2
  simp [hs, Chunk.bytes]

/-- The loop over the chunks takes what `chunkRun` says. -/
theorem swallowChunks_run {h done rest : Bytes} {zero : Chunk} (hz : zero.Ok)
    (hz0 : zero.data = []) (m : Nat) : ∀ (cs : List Chunk) (fuel : Nat) (hp : Http) (got r : Bytes),
    (∀ c ∈ cs, c.Ok ∧ c.data ≠ []) → cs.length < fuel → Benign hp.turns →
    hp.mem = h ++ done ++ got ++ r → hp.rxp = (h ++ done ++ got).length →
    hp.stream = cs.flatMap Chunk.bytes ++ (zero.bytes ++ rest) →
    FitAll r.length (cs ++ [zero]) → r.length < 2 ^ 31 →
    ∃ r' turns len, swallowChunks h.length done.length m fuel hp got.length =
        .ok ((got ++ (chunkRun m zero rest got.length cs).1).length,
          { hp.taken (h ++ done ++ got) (chunkRun m zero rest got.length cs).1 r'
            (chunkRun m zero rest got.length cs).2.stream turns with chunklen := len }) ∧
      Benign turns ∧ r'.length + (chunkRun m zero rest got.length cs).1.length = r.length ∧
      (chunkRun m zero rest got.length cs).2.Fits r'.length := by
  intro cs
  induction cs with
  | nil =>
    intro fuel hp got r _ hf hb hm hp0 hs hfit h31
    obtain ⟨fuel, rfl⟩ : ∃ n, fuel = n + 1 := ⟨fuel - 1, by simp at hf; omega⟩
    obtain ⟨r', turns, len, hrun, hb', hlen⟩ := httpRxchunk_chunk hz hb hm hp0 hs hfit.1 h31
    rw [hz0] at hrun hlen
    refine ⟨0 :: r', turns, len, ?_, hb', hlen, trivial⟩
    rw [swallowChunks, hrun, ok_bind, chunkRun]
    simp [Left.stream]
  | cons c cs ih =>
    intro fuel hp got r hcs hf hb hm hp0 hs hfit h31
    obtain ⟨fuel, rfl⟩ : ∃ n, fuel = n + 1 := ⟨fuel - 1, by simp at hf; omega⟩
    obtain ⟨hc, hne⟩ := hcs c List.mem_cons_self
    have hpos : 0 < c.data.length := List.length_pos_iff.mpr hne
    rw [List.flatMap_cons, List.append_assoc] at hs
    obtain ⟨r1, turns1, len1, hrun, hb1, hlen1⟩ := httpRxchunk_chunk hc hb hm hp0 hs hfit.1 h31
    let hp1 : Http := { hp.taken (h ++ done ++ got) c.data (0 :: r1)
      (cs.flatMap Chunk.bytes ++ (zero.bytes ++ rest)) turns1 with chunklen := len1 }
    have hgot : got.length + c.data.length = (got ++ c.data).length := by rw [List.length_append]
    have hroom : r.length - c.data.length = (0 :: r1).length := by omega
    have hturn := @swallowChunks_turn hp hp1 h.length done.length m (got ++ c.data).length
      c.data.length hpos hrun (by simp [hp1, Http.taken, Nat.add_assoc]) fuel got.length
    rw [hturn, chunkRun, hgot]
    by_cases hreach : m ≠ 0 ∧ m ≤ (got ++ c.data).length
    · -- the limit is reached
      rw [if_pos hreach, if_pos hreach]
      exact ⟨0 :: r1, turns1, len1, rfl, hb1, hlen1, hroom ▸ hfit.2⟩
    · rw [if_neg hreach, if_neg hreach]
      obtain ⟨r', turns, len, hrest, hb', hlen, hfit'⟩ :=
        ih fuel hp1 (got ++ c.data) (0 :: r1) (fun x hx => hcs x (List.mem_cons_of_mem c hx))
          (by simp at hf; omega) hb1 (by simp [hp1, Http.taken])
          (by simp [hp1, Http.taken, Nat.add_assoc]) rfl (hroom ▸ hfit.2) (by omega)
      refine ⟨r', turns, len, ?_, hb', ?_, hfit'⟩
      · rw [show swallowChunks _ _ _ _ _ _ = _ from hrest]
        simp [hp1, Http.taken, List.append_assoc, Nat.add_assoc]
      · show r'.length + (c.data ++ (chunkRun m zero rest (got ++ c.data).length cs).1).length = _
        rw [@List.length_append _ c.data]
        omega

/-- The loop that reads byte after byte takes up to the limit, or up to the end. -/
theorem swallowEof_run {m : Nat} : ∀ (d : Bytes) (fuel : Nat) (hp : Http) (a r : Bytes) (got : Nat),
    (m ≠ 0 → got < m) → d.length < fuel → Benign hp.turns → hp.mem = a ++ r →
    hp.rxp = a.length → hp.stream = d → d.length + 1 < r.length →
    ∃ r' turns, swallowEof m fuel hp got =
        .ok (some ((got + (d.take (limit (m - got) d.length)).length : Nat) : Int),
          hp.taken a (d.take (limit (m - got) d.length)) r' (d.drop (limit (m - got) d.length))
            turns) ∧
      Benign turns ∧ r'.length + (d.take (limit (m - got) d.length)).length = r.length := by
  intro d
  induction d with
  | nil =>
    intro fuel hp a r got _ hf hb hm hp0 hs hl
    obtain ⟨fuel, rfl⟩ : ∃ n, fuel = n + 1 := ⟨fuel - 1, by simp at hf; omega⟩
    obtain ⟨r', turns, hrun, hb', hlen, -⟩ :=
      @httpRxchar_short hp a r 1 true hb hm hp0 (by rw [hs]; decide) (by simp at hl; omega)
    rw [hs] at hrun hlen
    refine ⟨r', turns, ?_, hb', by simpa using hlen⟩
    rw [swallowEof, show httpRxchar hp 1 true = _ from hrun]
    simp [Http.eof]
  | cons c d ih =>
    intro fuel hp a r got hgot hf hb hm hp0 hs hl
    obtain ⟨fuel, rfl⟩ : ∃ n, fuel = n + 1 := ⟨fuel - 1, by simp at hf; omega⟩
    simp only [List.length_cons] at hf hl
    obtain ⟨r1, turns1, hrun, hb1, hlen1, -⟩ :=
      @httpRxchar_spec hp a [c] r d true hb hm hp0 hs (by simp; omega)
    have hlen1 : r1.length + 1 = r.length := hlen1
    rw [swallowEof, show httpRxchar hp 1 true = _ from hrun, ok_bind]
    simp only [if_neg (by decide : ¬ (1 : Int) < 0)]
    by_cases hreach : m ≠ 0 ∧ m = got + 1
    · -- the limit is reached
      have hlim : limit (m - got) (c :: d).length = 1 := by
        rw [limit]
        split <;> omega
      rw [if_pos (.inl (by omega)), hlim]
      exact ⟨r1, turns1, rfl, hb1, hlen1⟩
    · obtain ⟨r', turns, hrest, hb', hlen⟩ :=
        ih fuel (hp.taken a [c] r1 d turns1) (a ++ [c]) r1 (got + 1) (by omega) (by omega) hb1 rfl
          (by simp [Http.taken]) rfl (by omega)
      have hlim : limit (m - got) (c :: d).length = limit (m - (got + 1)) d.length + 1 := by
        simp only [limit, List.length_cons]
        split <;> split <;> omega
      rw [if_neg (by omega), hlim, List.take_succ_cons, List.drop_succ_cons]
      refine ⟨r', turns, ?_, hb', by simp only [List.length_cons]; omega⟩
      rw [Int.natCast_add, Int.natCast_one] at hrest
      rw [hrest, taken_taken, List.singleton_append, List.length_cons]
      simp only [Nat.add_assoc, Nat.add_comm 1]

/-! ## Between two calls -/

theorem chunkRun_left (m : Nat) (zero : Chunk) (rest : Bytes) : ∀ (cs : List Chunk) (got : Nat),
    (∃ cs1 cs2, cs = cs1 ++ cs2 ∧ (chunkRun m zero rest got cs).2 = .chunks cs2 zero rest) ∨
      (chunkRun m zero rest got cs).2 = .ended rest := by
  intro cs
  induction cs with
  | nil => intro got; exact .inr rfl
  | cons c cs ih =>
    intro got
    rw [chunkRun]
    split
    · exact .inl ⟨[c], cs, rfl, rfl⟩
    · rcases ih (got + c.data.length) with ⟨cs1, cs2, rfl, h⟩ | h
      · exact .inl ⟨c :: cs1, cs2, rfl, h⟩
      · exact .inr h

theorem Left.next_ok {left : Left} (h : left.Ok) (m : Nat) : (left.next m).2.Ok := by
  cases left with
  | length d rest => trivial
  | close d => trivial
  | chunks cs zero rest =>
    obtain ⟨hcs, hz⟩ := h
    rw [Left.next]
    rcases chunkRun_left m zero rest cs 0 with ⟨cs1, cs2, rfl, hl⟩ | hl
    · rw [hl]
      exact ⟨fun c hc => hcs c (List.mem_append_right _ hc), hz⟩
    · rw [hl]
      trivial
  | ended rest => trivial

theorem Left.next_framed {left : Left} {ls : List Bytes} {n : Nat} (h : left.Framed ls n)
    (m : Nat) : (left.next m).2.Framed ls (n + (left.next m).1.length) := by
  cases left with
  | length d rest =>
    obtain ⟨hte, q, hq, hnum, hlt⟩ := h
    have hlen : n + (d.take (limit m d.length)).length + (d.drop (limit m d.length)).length =
        n + d.length := by
      rw [Nat.add_assoc, ← List.length_append, List.take_append_drop]
    refine ⟨hte, q, hq, ?_⟩
    rw [show (Left.next m (.length d rest)).1 = d.take (limit m d.length) from rfl, hlen]
    exact ⟨hnum, hlt⟩
  | close d => exact h
  | chunks cs zero rest =>
    rw [Left.next]
    rcases chunkRun_left m zero rest cs 0 with ⟨cs1, cs2, rfl, hl⟩ | hl
    · rw [hl]
      exact h
    · rw [hl]
      exact h
  | ended rest => exact h

/-- The header stands in `h` and has the lines `ls`, `done` of the body has been received, and
`left` is still on the connection. -/
structure Mid (h : Bytes) (ls : List Bytes) (done : Bytes) (left : Left) (hp : Http) : Prop where
  turns : Benign hp.turns
  mem : ∃ r, hp.mem = h ++ done ++ r ∧ left.Fits r.length
  size : hp.mem.length = nrxbuf
  rxp : hp.rxp = (h ++ done).length
  body : hp.body = some h.length
  lines : ∀ t, Http.lines { hp with mem := h ++ t } = ls
  stream : hp.stream = left.stream
  ok : left.Ok
  framed : left.Framed ls done.length

section Mid

variable {h : Bytes} {ls : List Bytes} {done : Bytes} {left : Left} {hp : Http}

theorem Mid.lines_eq (hmid : Mid h ls done left hp) : hp.lines = ls := by
  obtain ⟨r, hm, -⟩ := hmid.mem
  have := hmid.lines (done ++ r)
  rwa [← List.append_assoc, ← hm] at this

/-- `l` at the start of `http_swallow_body`. -/
theorem Mid.received_length (hmid : Mid h ls done left hp) :
    (hp.rxp : Int) - h.length = done.length := by
  rw [hmid.rxp, List.length_append]
  omega

/-- What a call takes has been moved from the connection to the buffer. -/
theorem Mid.moved (hmid : Mid h ls done left hp) {m : Nat} {r r' : Bytes} {turns : List RxTurn}
    (hm : hp.mem = h ++ done ++ r) (hb : Benign turns)
    (hlen : r'.length + (left.next m).1.length = r.length)
    (hfit : (left.next m).2.Fits r'.length) (len : Bytes) (n : Int) :
    Mid h ls (done ++ (left.next m).1) (left.next m).2
      (Http.setBodylen { hp.taken (h ++ done) (left.next m).1 r' (left.next m).2.stream turns with
        chunklen := len } n) where
  turns := hb
  mem := ⟨r', by simp [Http.setBodylen, Http.taken], hfit⟩
  size := by
    have hsize := hmid.size
    simp only [hm, Http.setBodylen, Http.taken, List.length_append] at hsize ⊢
    omega
  rxp := by simp [Http.setBodylen, Http.taken, Nat.add_assoc]
  body := hmid.body
  lines := hmid.lines
  stream := rfl
  ok := Left.next_ok hmid.ok m
  framed := by
    rw [List.length_append]
    exact Left.next_framed hmid.framed m

theorem length_le_flatMap_bytes (cs : List Chunk) :
    cs.length ≤ (cs.flatMap Chunk.bytes).length := by
  induction cs with
  | nil => simp
  | cons c cs ih =>
    simp only [List.flatMap_cons, Chunk.bytes, nl, List.length_append, List.length_cons] at ih ⊢
    omega

/-- A call with limit `m` moves what it is to take. -/
def Moves (h : Bytes) (ls : List Bytes) (done : Bytes) (left : Left) (hp : Http) (m : Nat) : Prop :=
  ∃ hp', httpSwallowBody hp true m = .ok hp' ∧
    Mid h ls (done ++ (left.next m).1) (left.next m).2 hp' ∧ hp'.fatal = hp.fatal ∧
    hp'.bodyl = (done ++ (left.next m).1).length ∧
    hp'.bodylen = decimal (done ++ (left.next m).1).length

theorem Mid.call_length {d rest : Bytes} (hmid : Mid h ls done (.length d rest) hp) (m : Nat) :
    Moves h ls done (.length d rest) hp m := by
  obtain ⟨r, hm, hfit⟩ := hmid.mem
  obtain ⟨hte, q, hq, hnum, hlt⟩ := hmid.framed
  have hv : toInt32 (strtoul 10 q).1 = (done.length + d.length : Nat) := by
    rw [hnum, toInt32_of_lt hlt]
  have hll : (if (m : Int) ≠ 0 ∧ (done.length : Int) + m < (done.length + d.length : Nat) then
      (m : Int) else ((done.length + d.length : Nat) : Int) - done.length) =
      ((d.take (limit m d.length)).length : Nat) := by
    rw [List.length_take, limit]
    split <;> split <;> omega
  have hsplit : (d.take (limit m d.length)).length + (d.drop (limit m d.length)).length =
      d.length := by
    rw [← List.length_append, List.take_append_drop]
  have hs : hp.stream = d.take (limit m d.length) ++ (d.drop (limit m d.length) ++ rest) := by
    rw [hmid.stream, ← List.append_assoc, List.take_append_drop]
    rfl
  have hfit : d.length < r.length := hfit
  obtain ⟨r', turns, hrun, hb', hlen, -⟩ :=
    httpRxchar_spec false hmid.turns hm hmid.rxp hs (by omega)
  refine ⟨_, ?_, hmid.moved (m := m) hm hb' hlen ?_ hp.chunklen
    ((done ++ d.take (limit m d.length)).length : Nat), rfl, rfl, decimalInt_ofNat _⟩
  · rw [httpSwallowBody, hmid.body]
    simp only [hmid.lines_eq, hte, Bool.false_eq_true, if_false, hq, hv, hmid.received_length, hll,
      hrun, ok_bind]
    rw [if_neg (by decide), List.length_append]
    rfl
  · show (d.drop (limit m d.length)).length < r'.length
    omega

theorem Mid.call_close {d : Bytes} (hmid : Mid h ls done (.close d) hp) (m : Nat) :
    Moves h ls done (.close d) hp m := by
  obtain ⟨r, hm, hfit⟩ := hmid.mem
  obtain ⟨hte, hcl⟩ := hmid.framed
  have hs : hp.stream = d := hmid.stream
  obtain ⟨r', turns, hrun, hb', hlen⟩ :=
    @swallowEof_run m d (hp.stream.length + 1) hp (h ++ done) r 0 (by omega) (by rw [hs]; omega)
      hmid.turns hm hmid.rxp hs hfit
  rw [Nat.sub_zero, Nat.zero_add] at hrun
  have hsplit : (d.take (limit m d.length)).length + (d.drop (limit m d.length)).length =
      d.length := by
    rw [← List.length_append, List.take_append_drop]
  have hfit : d.length + 1 < r.length := hfit
  refine ⟨_, ?_, hmid.moved (m := m) hm hb' hlen ?_ hp.chunklen
    ((done ++ d.take (limit m d.length)).length : Nat), rfl, rfl, decimalInt_ofNat _⟩
  · rw [httpSwallowBody, hmid.body]
    simp only [hmid.lines_eq, hte, Bool.false_eq_true, if_false, hcl, if_true,
      hmid.received_length]
    rw [show swallowEof _ _ _ 0 = _ from hrun, ok_bind, List.length_append]
    rfl
  · show (d.drop (limit m d.length)).length + 1 < r'.length
    rw [Nat.sub_zero] at hlen
    omega

theorem Mid.call_chunks {cs : List Chunk} {zero : Chunk} {rest : Bytes}
    (hmid : Mid h ls done (.chunks cs zero rest) hp) (m : Nat) :
    Moves h ls done (.chunks cs zero rest) hp m := by
  obtain ⟨r, hm, hfit⟩ := hmid.mem
  obtain ⟨hte, hcl⟩ := hmid.framed
  obtain ⟨hcs, hz, hz0⟩ := hmid.ok
  have hs : hp.stream = cs.flatMap Chunk.bytes ++ (zero.bytes ++ rest) := hmid.stream
  have hfuel : cs.length < hp.stream.length + 1 := by
    have := length_le_flatMap_bytes cs
    rw [hs, List.length_append]
    omega
  have h31 : r.length < 2 ^ 31 := by
    have := hmid.size
    rw [hm, List.length_append, nrxbuf] at this
    omega
  obtain ⟨r', turns, len, hrun, hb', hlen, hfit'⟩ :=
    swallowChunks_run hz hz0 m cs (hp.stream.length + 1) hp [] r hcs hfuel hmid.turns
      (by rw [List.append_nil]; exact hm) (by rw [List.append_nil]; exact hmid.rxp) hs hfit h31
  rw [List.append_nil, List.nil_append, List.length_nil] at hrun
  refine ⟨_, ?_, hmid.moved (m := m) hm hb' hlen hfit' len
    ((done ++ (chunkRun m zero rest 0 cs).1).length : Nat), rfl, rfl, decimalInt_ofNat _⟩
  rw [httpSwallowBody, hmid.body]
  simp only [hmid.lines_eq, hte, if_true, hcl, Option.isSome_none, Bool.false_eq_true, if_false,
    hmid.received_length]
  rw [show swallowChunks _ _ _ _ _ 0 = _ from hrun, ok_bind, List.length_append]
  rfl

/-- One call with limit `m`, where 0 is no limit. -/
theorem Mid.call (hmid : Mid h ls done left hp) (hne : ¬left.Ended) (m : Nat) :
    Moves h ls done left hp m := by
  cases left with
  | length d rest => exact hmid.call_length m
  | close d => exact hmid.call_close m
  | chunks cs zero rest => exact hmid.call_chunks m
  | ended rest => exact absurd trivial hne

/-- A call behind the last chunk takes what comes then for a chunk: at the end of the connection it
fails. -/
theorem Mid.call_ended (hmid : Mid h ls done (.ended []) hp) (hroom : hp.rxp + 1 < hp.mem.length)
    (hf : hp.fatal = true) (m : Nat) : httpSwallowBody hp true m = .error .fatal := by
  obtain ⟨r, hm, -⟩ := hmid.mem
  obtain ⟨hte, hcl⟩ := hmid.framed
  have hs : hp.stream = [] := hmid.stream
  simp only [hm, hmid.rxp, List.length_append] at hroom
  obtain ⟨r', turns, hrun, -⟩ :=
    @httpRxchar_short hp (h ++ done) r 1 false hmid.turns hm hmid.rxp (by rw [hs]; decide)
      (by omega)
  have hfail : httpRxchar hp 1 false = .error .fatal := by
    rw [show httpRxchar hp 1 false = _ from hrun, Http.eof, if_neg (by decide), Http.failed,
      if_pos (show (hp.taken _ _ _ _ _).fatal = true from hf)]
  rw [httpSwallowBody, hmid.body]
  simp only [hmid.lines_eq, hte, if_true, hcl, Option.isSome_none, Bool.false_eq_true, if_false,
    swallowChunks, httpRxchunk, rxchunkLine, hfail, error_bind]

end Mid

/-! ## Any number of calls -/

/-- The part of the body that is in the buffer. -/
def Http.received (hp : Http) : Bytes :=
  match hp.body with
  | none => []
  | some body => (hp.mem.drop body).take (hp.rxp - body)

theorem Mid.received_eq {h : Bytes} {ls : List Bytes} {done : Bytes} {left : Left} {hp : Http}
    (hmid : Mid h ls done left hp) : hp.received = done := by
  obtain ⟨r, hm, -⟩ := hmid.mem
  simp only [Http.received, hmid.body, hm, hmid.rxp, List.length_append, Nat.add_sub_cancel_left]
  rw [List.append_assoc, List.drop_left, List.take_left]

/-- A call of `rxrespbody -max`: the pointers and the length agree, and it takes what it is to
take. -/
structure Call (s : Http × Left) (m : Nat) (s' : Http × Left) : Prop where
  run : cmdHttpRxrespbody s.1 [ascii "-max", decimal m] = .ok s'.1
  bodyl : ∃ body, s'.1.body = some body ∧ s'.1.bodyl = (s'.1.rxp : Int) - body
  piece : ∃ got, Piece m s.2 got s'.2 ∧ s'.1.received = s.1.received ++ got ∧
    s'.1.rxp = s.1.rxp + got.length

/-- The body and its length, as number and as text. -/
structure SameBody (hp hp' : Http) : Prop where
  received : hp.received = hp'.received
  bodyl : hp.bodyl = hp'.bodyl
  bodylen : hp.bodylen = hp'.bodylen

/-- All of a body has been received, and its length noted. -/
structure Whole (hp : Http) (body : Bytes) : Prop where
  received : hp.received = body
  bodyl : hp.bodyl = body.length
  bodylen : hp.bodylen = decimal body.length

theorem Whole.same {hp hp' : Http} {body : Bytes} (h : Whole hp body) (h' : Whole hp' body) :
    SameBody hp hp' :=
  ⟨h.received.trans h'.received.symm, h.bodyl.trans h'.bodyl.symm,
    h.bodylen.trans h'.bodylen.symm⟩

section Calls

variable {h : Bytes} {ls : List Bytes} {done : Bytes} {left : Left} {hp : Http}

/-- One limited call. -/
theorem Mid.limited (hmid : Mid h ls done left hp) (hne : ¬left.Ended) {m : Nat} (hm : 1 ≤ m)
    (hm' : m < 2 ^ 30) :
    ∃ hp', Call (hp, left) m (hp', (left.next m).2) ∧
      Mid h ls (done ++ (left.next m).1) (left.next m).2 hp' ∧ hp'.fatal = hp.fatal ∧
      Whole hp' (done ++ (left.next m).1) := by
  obtain ⟨hp', hrun, hmid', hf, hbl, hblen⟩ := hmid.call hne m
  refine ⟨hp', ⟨?_, ⟨h.length, hmid'.body, ?_⟩, (left.next m).1, Left.next_piece hm hne, ?_, ?_⟩,
    hmid', hf, hmid'.received_eq, hbl, hblen⟩
  · rw [cmdHttpRxrespbody_max hp (by omega)]
    exact hrun
  · rw [hmid'.received_length]
    exact hbl
  · rw [hmid'.received_eq, hmid.received_eq]
  · rw [hmid'.rxp, hmid.rxp, ← List.append_assoc, List.length_append]

/-- The call without a limit. -/
theorem Mid.unlimited (hmid : Mid h ls done left hp) (hne : ¬left.Ended) :
    ∃ hp', cmdHttpRxrespbody hp [] = .ok hp' ∧ Whole hp' (done ++ left.data) := by
  obtain ⟨hp', hrun, hmid', -, hbl, hblen⟩ := hmid.call hne 0
  have hrec := hmid'.received_eq
  rw [Left.next_zero] at hrec hbl hblen
  exact ⟨hp', hrun, hrec, hbl, hblen⟩

/-- The calls go on until there are no more of them, or a chunked body has ended. -/
theorem Mid.calls : ∀ (ms : List Nat) (done : Bytes) (left : Left) (hp : Http),
    Mid h ls done left hp → ¬left.Ended → (∀ m ∈ ms, 1 ≤ m ∧ m < 2 ^ 30) →
    ∃ (k : Nat) (done' : Bytes) (left' : Left) (hp' : Http), k ≤ ms.length ∧
      Path Call (hp, left) (ms.take k) (hp', left') ∧ (k = ms.length ∨ left'.Ended) ∧
      Mid h ls done' left' hp' ∧ done' ++ left'.data = done ++ left.data ∧
      (0 < k ∨ Whole hp done → Whole hp' done') := by
  intro ms
  induction ms with
  | nil =>
    intro done left hp hmid hne _
    exact ⟨0, done, left, hp, Nat.le_refl 0, .nil, .inl rfl, hmid, rfl,
      fun hw => hw.resolve_left (Nat.lt_irrefl 0)⟩
  | cons m ms ih =>
    intro done left hp hmid hne hms
    obtain ⟨hm, hm'⟩ := hms m List.mem_cons_self
    obtain ⟨hp1, hcall, hmid1, -, hw1⟩ := hmid.limited hne hm hm'
    have hdata : done ++ (left.next m).1 ++ (left.next m).2.data = done ++ left.data := by
      rw [List.append_assoc, Left.next_data]
    by_cases hend : (left.next m).2.Ended
    · exact ⟨1, _, _, hp1, by simp, .cons hcall .nil, .inr hend, hmid1, hdata, fun _ => hw1⟩
    · obtain ⟨k, done', left', hp', hk, hpath, hstop, hmid', hdata', hw'⟩ :=
        ih _ _ hp1 hmid1 hend fun x hx => hms x (List.mem_cons_of_mem m hx)
      refine ⟨k + 1, done', left', hp', by simpa using hk, .cons hcall hpath,
        hstop.imp_left (by simp), hmid', hdata'.trans hdata, fun _ => hw' (.inr hw1)⟩

end Calls

/-- Whatever the limits, the calls take what they are to take, up to the last call or to the end of
a chunked body; and when they have taken all, or one call without a limit has taken the rest, the
body is the one that a single call without a limit receives. -/
theorem body_piecewise {h : Bytes} {ls : List Bytes} {left : Left} {hp : Http}
    (hmid : Mid h ls [] left hp) (hne : ¬left.Ended) {ms : List Nat}
    (hms : ∀ m ∈ ms, 1 ≤ m ∧ m < 2 ^ 30) :
    ∃ (k : Nat) (left' : Left) (hp' whole : Http), k ≤ ms.length ∧
      Path Call (hp, left) (ms.take k) (hp', left') ∧ (k = ms.length ∨ left'.Ended) ∧
      cmdHttpRxrespbody hp [] = .ok whole ∧ Whole whole left.data ∧
      (0 < k → left'.data = [] → SameBody hp' whole) ∧
      (¬left'.Ended → ∃ last, cmdHttpRxrespbody hp' [] = .ok last ∧ SameBody last whole) := by
  obtain ⟨whole, hall, hwhole⟩ := hmid.unlimited hne
  obtain ⟨k, done', left', hp', hk, hpath, hstop, hmid', hdata, hw⟩ :=
    Mid.calls ms [] left hp hmid hne hms
  rw [List.nil_append] at hwhole hdata
  refine ⟨k, left', hp', whole, hk, hpath, hstop, hall, hwhole, fun hpos hnil => ?_, fun hne' => ?_⟩
  · rw [hnil, List.append_nil] at hdata
    have hw' := hw (.inl hpos)
    rw [hdata] at hw'
    exact hw'.same hwhole
  · obtain ⟨last, hlast, hw'⟩ := hmid'.unlimited hne'
    rw [hdata] at hw'
    exact ⟨last, hlast, hw'.same hwhole⟩

/-! ## From the header on -/

/-- Behind a well-formed header, all of the body is left. -/
theorem rxHeader_mid {r : Resp} {left : Left} (hw : r.Wf) (hlines : r.lines.length ≤ 60)
    (hframed : left.Framed r.lines 0) (hok : left.Ok) {hp : Http}
    (hs : hp.stream = r.head ++ left.stream) (hb : Benign hp.turns) (hm : hp.mem.length = nrxbuf)
    (hl : r.head.length < nrxbuf) (hfit : left.Fits (nrxbuf - r.head.length)) :
    ∃ hp', rxHeader hp = .ok hp' ∧ Mid (r.cut ++ nl) r.lines [] left hp' ∧
      hp'.fatal = hp.fatal := by
  obtain ⟨j, turns, hrx, hb1, hlen⟩ := rxHeader_spec hw hlines hs hb hm hl
  have hcut := r.length_cut
  refine ⟨_, hrx, ?_, rfl⟩
  constructor
  case turns => exact hb1
  case mem =>
    refine ⟨0 :: j, by rw [List.append_nil], ?_⟩
    rw [List.length_append, hcut] at hlen
    rwa [show (0 :: j : Bytes).length = nrxbuf - r.head.length by omega]
  case size => exact hlen
  case rxp => rw [List.append_nil, hcut]
  case body => rw [hcut]
  case lines => exact fun t => lines_spec hw (List.append_assoc _ _ _) rfl
  case stream => rfl
  case ok => exact hok
  case framed => exact hframed

/-- A path through a body of known length does not leave it. -/
theorem calls_length_left {s s' : Http × Left} {ms : List Nat} (hpath : Path Call s ms s')
    (hs : ∃ d rest, s.2 = .length d rest) : ¬s'.2.Ended := by
  have hkeep : ∃ d rest, s'.2 = .length d rest := by
    refine hpath.keeps (I := fun s => ∃ d rest, s.2 = .length d rest) ?_ hs
    rintro ⟨hp, left⟩ m ⟨hp', left'⟩ ⟨d, rest, rfl⟩ hcall
    obtain ⟨got, hpiece, -⟩ := hcall.piece
    cases hpiece
    exact ⟨_, _, rfl⟩
  obtain ⟨d, rest, h⟩ := hkeep
  rw [h]
  exact fun hf => hf

/-- A header that announces five bytes. -/
def fiveHead : Resp where
  proto := ascii "HTTP/1.1"
  status := ascii "200"
  reason := ascii "OK"
  lines := [ascii "Content-Length: 5"]
  body := []

theorem fiveHead_wf : fiveHead.Wf where
  proto := by unfold Word; decide +kernel
  status := by unfold Word; decide +kernel
  reason := by unfold Printable; decide +kernel
  reason_head := by decide +kernel
  lines := by unfold Printable; decide +kernel

/-- Five bytes, taken by two and then by the rest. -/
theorem body_piecewise_five :
    ∃ hp hp' last, rxHeader { mem := List.replicate nrxbuf 0, stream := fiveHead.head ++
        (ascii "hello" ++ ascii "next"), turns := [.part 3, .eintr] } = .ok hp ∧
      Path Call (hp, .length (ascii "hello") (ascii "next")) [2, 2] hp' ∧
      cmdHttpRxrespbody hp'.1 [] = .ok last ∧ Whole last (ascii "hello") := by
  have hturns : Benign [.part 3, .eintr] := by
    intro t ht
    rcases List.mem_pair.mp ht with rfl | rfl
    · exact .inr ⟨3, rfl⟩
    · exact .inl rfl
  have hlen : fiveHead.head.length = 38 := by decide +kernel
  have hframed : (Left.length (ascii "hello") (ascii "next")).Framed fiveHead.lines 0 :=
    ⟨by decide +kernel, ascii "5", by decide +kernel, by decide +kernel, by decide +kernel⟩
  obtain ⟨hp, hrx, hmid, -⟩ := @rxHeader_mid fiveHead _ fiveHead_wf (by decide) hframed trivial
    { mem := List.replicate nrxbuf 0,
      stream := fiveHead.head ++ (ascii "hello" ++ ascii "next"), turns := [.part 3, .eintr] }
    rfl hturns List.length_replicate (by rw [hlen]; decide)
    (by rw [hlen]; show (ascii "hello").length < _; decide +kernel)
  obtain ⟨k, left', hp', whole, hk, hpath, hstop, -, hwhole, -, hlast⟩ :=
    @body_piecewise _ _ _ hp hmid (fun h => h) [2, 2] (by decide)
  have hne := calls_length_left hpath ⟨_, _, rfl⟩
  obtain ⟨last, hrun, hsame⟩ := hlast hne
  obtain rfl : k = 2 := hstop.resolve_right hne
  exact ⟨hp, (hp', left'), last, hrx, hpath, hrun, hsame.received.trans hwhole.received,
    hsame.bodyl.trans hwhole.bodyl, hsame.bodylen.trans hwhole.bodylen⟩

/-- A body of one chunk, and nothing behind it. -/
def oneChunk : Left :=
  .chunks [⟨ascii "1\r\n", ascii "A"⟩] ⟨ascii "0\r\n", []⟩ []

theorem oneChunk_ok : oneChunk.Ok := by
  refine ⟨?_, ⟨⟨ascii "0\r", by decide +kernel, by decide +kernel⟩, announces_numeral 0⟩, rfl⟩
  intro c hc
  rw [List.mem_singleton.mp hc]
  exact ⟨⟨⟨ascii "1\r", by decide +kernel, by decide +kernel⟩, announces_numeral 1⟩, by decide⟩

/-- The first call takes the chunk and the last chunk. The second one looks for one more chunk,
although there is nothing left of the body. -/
theorem rxrespbody_behind_last_chunk :
    ∃ hp hp', rxHeader { mem := List.replicate nrxbuf 0, stream := chunkedHead.head ++
        oneChunk.stream } = .ok hp ∧
      Call (hp, oneChunk) 5 (hp', .ended []) ∧ Whole hp' oneChunk.data ∧
      cmdHttpRxrespbody hp' [ascii "-max", decimal 5] = .error .fatal := by
  have hlen : chunkedHead.head.length = 47 := by decide +kernel
  obtain ⟨hp, hrx, hmid, hf⟩ := @rxHeader_mid chunkedHead oneChunk chunkedHead_wf (by decide)
    ⟨by decide +kernel, by decide +kernel⟩ oneChunk_ok
    { mem := List.replicate nrxbuf 0, stream := chunkedHead.head ++ oneChunk.stream } rfl benign_nil
    List.length_replicate (by rw [hlen]; decide)
    ⟨⟨by rw [hlen]; decide +kernel, by rw [hlen]; decide +kernel⟩, ⟨by rw [hlen]; decide +kernel,
      by rw [hlen]; decide +kernel⟩, trivial⟩
  have hne : ¬oneChunk.Ended := fun h => h
  have hnext : oneChunk.next 5 = (ascii "A", .ended []) := rfl
  obtain ⟨hp', hcall, hmid', hf', hw⟩ := hmid.limited hne (by decide : 1 ≤ 5) (by decide)
  rw [hnext] at hcall hmid' hw
  refine ⟨hp, hp', hrx, hcall, hw, ?_⟩
  rw [cmdHttpRxrespbody_max hp' (by decide)]
  refine hmid'.call_ended ?_ (hf'.trans hf) 5
  rw [hmid'.size, hmid'.rxp, List.length_append, Resp.length_cut, hlen]
  decide +kernel

end Http1
end VTest
