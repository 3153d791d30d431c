import VTest.Lib.Moves
import VTest.Lib.Run
import VTest.Lib.Text

/-!
# VTest.Term.Vram

The virtual screen of a process (`vtc_process.c`): `term_putchar`, `term_fill`, `term_copy` and
`term_resize`, which the terminal emulation calls, and `term_find_textline` and `term_match_text`,
which look at the screen.

The rows of `vram` are allocated one by one, so each is a memory of its own: nothing that is written
to one of them shows in another. Positions are `unsigned short` in the source. No loop over them
wraps, as it stops at the end of its rectangle, so they are numbers here, and so are the `int`s
`nlin` and `ncol`. What the emulation keeps for itself (the cursor, attributes, `teken_set_winsize`)
is left out, and so is the lock: a call sees one screen.

* `Sized.store`: what a write to a row leaves.
* `termPutchar_spec`, `termFill_spec`: the cells after `term_putchar` and `term_fill`.
-/

namespace VTest
namespace Term

/-- `teken_pos_t`. -/
structure Pos where
  tpRow : Nat
  tpCol : Nat
  deriving DecidableEq, Repr

/-- `teken_rect_t`. The row and the column of the end are not in it. -/
structure Rect where
  trBegin : Pos
  trEnd : Pos
  deriving DecidableEq, Repr

/-- The screen of `struct process`. There is no `vram` before the first `term_resize`. -/
structure Process where
  vram : Option (List Bytes) := none
  nlin : Nat := 0
  ncol : Nat := 0
  deriving DecidableEq, Repr

namespace Process

def rows (pp : Process) : List Bytes := pp.vram.getD []

def row (pp : Process) (i : Nat) : Bytes := pp.rows.getD i []

/-- `pp->vram[i][j]`, if there is such a byte. -/
def cell (pp : Process) (i j : Nat) : Option UInt8 := (pp.row i)[j]?

end Process

/-! ## Memory -/

/-- `n` bytes from `&vram[i][j]` on. -/
def loadRow (vram : List Bytes) (i j n : Nat) : Res Bytes :=
  match vram[i]? with
  | none => .error .ub
  | some row => if j + n ≤ row.length then .ok ((row.drop j).take n) else .error .ub

/-- `b` is written to `&vram[i][j]`. -/
def storeRow (vram : List Bytes) (i j : Nat) (b : Bytes) : Res (List Bytes) :=
  match vram[i]? with
  | none => .error .ub
  | some row => do
    let row ← poke row j b
    return vram.set i row

def Process.store (pp : Process) (i j : Nat) (b : Bytes) : Res Process := do
  let vram ← storeRow pp.rows i j b
  return { pp with vram := some vram }

/-! ## The calls of the emulation -/

/-- `ch` of `term_putchar`, with `?` for what is not printable. -/
def termChar (ch : UInt32) : UInt8 := if ch > 126 || ch < 32 then 63 else ch.toUInt8

def termPutchar (pp : Process) (pos : Pos) (ch : UInt32) : Res Process := do
  check (pos.tpRow < pp.nlin)
  check (pos.tpCol < pp.ncol)
  pp.store pos.tpRow pos.tpCol [termChar ch]

/-- The inner loop of `term_fill`. -/
def fillRow (r : Rect) (c : UInt32) (pp : Process) (row : Nat) : Res Process :=
  run (fun pp col => termPutchar pp ⟨row, col⟩ c) pp
    (List.range' r.trBegin.tpCol (r.trEnd.tpCol - r.trBegin.tpCol))

def termFill (pp : Process) (r : Rect) (c : UInt32) : Res Process :=
  run (fillRow r c) pp (List.range' r.trBegin.tpRow (r.trEnd.tpRow - r.trBegin.tpRow))

/-- One `memmove` of `term_copy`. -/
def copyRow (r : Rect) (p : Pos) (pp : Process) (y : Nat) : Res Process :=
  -- a negative `ncol` is a size that no object has
  if r.trEnd.tpCol < r.trBegin.tpCol then .error .ub
  else do
    let b ← loadRow pp.rows (r.trBegin.tpRow + y) r.trBegin.tpCol (r.trEnd.tpCol - r.trBegin.tpCol)
    pp.store (p.tpRow + y) p.tpCol b

def termCopy (pp : Process) (r : Rect) (p : Pos) : Res Process :=
  let nrow := r.trEnd.tpRow - r.trBegin.tpRow
  if p.tpRow < r.trBegin.tpRow then run (copyRow r p) pp (List.range nrow)
  else run (copyRow r p) pp (List.range nrow).reverse

/-- A row of a new `vram`. -/
def blankRow (col : Nat) : Bytes := List.replicate col 32 ++ [0]

/-- `memcpy(vram[i], pp->vram[i], j)`. -/
def keepRow (old : List Bytes) (j : Nat) (vram : List Bytes) (i : Nat) : Res (List Bytes) := do
  let b ← loadRow old i 0 j
  storeRow vram i 0 b

/-- The rows that are kept, and then all the old ones are freed. -/
def keepRows (pp : Process) (lin col : Nat) (vram : List Bytes) : Res (List Bytes) :=
  match pp.vram with
  | none => .ok vram
  | some old => do
    let vram ← run (keepRow old (min col pp.ncol)) vram (List.range (min lin pp.nlin))
    if old.length < pp.nlin then .error .ub else return vram

def termResize (pp : Process) (lin col : Nat) : Res Process := do
  let vram ← keepRows pp lin col (List.replicate lin (blankRow col))
  return { vram := some vram, nlin := lin, ncol := col }

/-- `DECCOLM`: 132 columns or 80. -/
def termParam (pp : Process) (v : Bool) : Res Process :=
  termResize pp pp.nlin (if v then 132 else 80)

/-! ## Looking at the screen -/

/-- `strstr`: the place of the first `pat` in front of the NUL, from place `i` on. -/
def strstr (pat : Bytes) : Nat → Bytes → Res (Option Nat)
  | _, [] => .error .ub
  | i, b :: m =>
    if pat.isPrefixOf (b :: m) then .ok (some i)
    else if b = 0 then .ok none
    else strstr pat (i + 1) m

/-- Whether `pat` is on line `y`, and `*x`, the column of it. -/
def termFindTextline (pp : Process) (x y : Nat) (pat : Bytes) : Res (Bool × Nat) :=
  if x = 0 then
    match pp.rows[y]? with
    | none => .error .ub
    | some row => do
      let t ← strstr pat 0 row
      match t with
      | some t => return (true, 1 + t)
      | none => return (false, x)
  else if x ≤ pp.ncol then do
    check (decide ((x : Int) - 1 + ((pat.length : Int) - 1) < pp.ncol))
    let t ← loadRow pp.rows y (x - 1) pat.length
    return (t = pat, x)
  else .ok (false, x)

/-- The rows of `term_match_text`, each with a newline. -/
def matchRows (pp : Process) (x : Nat) (vsb : Bytes) (i : Nat) : Res Bytes := do
  let b ← loadRow pp.rows i x (pp.ncol - x)
  return vsb ++ b ++ [10]

/-- What `VRE_match` looks at: the text up to its length, which is that of the string if it is
given as 0. -/
def vreSubject (text : Bytes) (len : Nat) : Bytes :=
  if len = 0 then cstr (text ++ [0]) 0 else text.take len

def matchSubject (pp : Process) (y x : Nat) : Res Bytes := do
  let vsb ← run (matchRows pp x) [] (List.range' y (pp.nlin - y))
  return vreSubject vsb ((pp.nlin - y) * (pp.ncol - x))

/-- `term_match_text`. A regular expression is what it matches; one that does not compile is `none`.
`y` and `x` are `ssize_t`: a number that makes them negative fails as one that is too large. -/
def termMatchText (vreCompile : Bytes → Option (Bytes → Bool)) (pp : Process)
    (lin col re : Bytes) : Res Unit := do
  let y := (strtoul 0 lin).1
  fatalIf (pp.nlin < y)
  let x := (strtoul 0 col).1
  fatalIf (pp.ncol < x)
  match vreCompile re with
  | none => .error .fatal
  | some vre => do
    let subject ← matchSubject pp (y - 1) (x - 1)
    fatalIf (!vre subject)

/-! ## Writing to a row -/

/-- `vram` has `nlin` rows of `ncol + 1` bytes. -/
structure Process.Sized (pp : Process) : Prop where
  vram : pp.vram = some pp.rows
  nlin : pp.rows.length = pp.nlin
  ncol : ∀ i < pp.nlin, (pp.row i).length = pp.ncol + 1

/-- The rows of `pp'` are those given, and it is as large as `pp`. -/
structure Redrawn (pp pp' : Process) (row : Nat → Bytes) : Prop where
  sized : pp'.Sized
  nlin : pp'.nlin = pp.nlin
  ncol : pp'.ncol = pp.ncol
  row : pp'.row = row

section

variable {pp pp' : Process}

theorem getElem?_of_lt {vram : List Bytes} {i : Nat} (h : i < vram.length) :
    vram[i]? = some (vram.getD i []) := by
  rw [List.getElem?_eq_getElem h, List.getD_eq_getElem _ _ h]

theorem getD_set (vram : List Bytes) {i : Nat} (h : i < vram.length) (row : Bytes) :
    (fun k => (vram.set i row).getD k []) = Function.update (fun k => vram.getD k []) i row := by
  funext k
  by_cases hk : k = i
  · subst hk
    rw [Function.update_self, List.getD_eq_getElem?_getD, List.getElem?_set_self h]
    rfl
  · rw [Function.update_of_ne hk, List.getD_eq_getElem?_getD,
      List.getElem?_set_ne (Ne.symm hk), ← List.getD_eq_getElem?_getD]

theorem Process.Sized.loadRow (h : pp.Sized) {i j n : Nat} (hi : i < pp.nlin)
    (hj : j + n ≤ pp.ncol + 1) : loadRow pp.rows i j n = .ok (((pp.row i).drop j).take n) := by
  have hget : pp.rows[i]? = some (pp.row i) := getElem?_of_lt (by rw [h.nlin]; exact hi)
  rw [Term.loadRow, hget]
  dsimp only
  rw [h.ncol i hi, if_pos hj]

/-- A write inside a row changes that row, and the size of nothing. -/
theorem Process.Sized.store (h : pp.Sized) {i j : Nat} {b : Bytes} (hi : i < pp.nlin)
    (hj : j + b.length ≤ pp.ncol + 1) : ∃ pp', pp.store i j b = .ok pp' ∧
      Redrawn pp pp' (Function.update pp.row i (put (pp.row i) j b)) := by
  have hlt : i < pp.rows.length := by
    rw [h.nlin]
    exact hi
  have hfit : j + b.length ≤ (pp.row i).length := by
    rw [h.ncol i hi]
    exact hj
  have hget : pp.rows[i]? = some (pp.row i) := getElem?_of_lt hlt
  let rows := pp.rows.set i (put (pp.row i) j b)
  have hrow : (fun k => rows.getD k []) = Function.update pp.row i (put (pp.row i) j b) :=
    getD_set pp.rows hlt _
  refine ⟨{ pp with vram := some rows }, ?_, ⟨rfl, ?_, ?_⟩, rfl, rfl, hrow⟩
  · rw [Process.store, storeRow, hget]
    dsimp only
    rw [poke_of_le hfit]
    rfl
  · exact (List.length_set ..).trans h.nlin
  · intro k hk
    have hk' : Process.row { pp with vram := some rows } k =
        Function.update pp.row i (put (pp.row i) j b) k := congrFun hrow k
    rw [hk']
    by_cases hki : k = i
    · subst hki
      rw [Function.update_self, length_put hfit]
      exact h.ncol k hk
    · rw [Function.update_of_ne hki]
      exact h.ncol k hk

end

/-! ## Cells that get one character -/

/-- The cells in `P` hold `b`, and the others what they held. -/
structure Painted (pp pp' : Process) (P : Nat → Nat → Prop) (b : UInt8) : Prop where
  sized : pp'.Sized
  nlin : pp'.nlin = pp.nlin
  ncol : pp'.ncol = pp.ncol
  inside : ∀ i j, P i j → pp'.cell i j = some b
  outside : ∀ i j, ¬P i j → pp'.cell i j = pp.cell i j

section

variable {pp pp1 pp2 : Process} {P Q : Nat → Nat → Prop} {b : UInt8}

theorem Painted.congr (h : Painted pp pp1 P b) (hPQ : ∀ i j, P i j ↔ Q i j) :
    Painted pp pp1 Q b where
  sized := h.sized
  nlin := h.nlin
  ncol := h.ncol
  inside i j hQ := h.inside i j ((hPQ i j).mpr hQ)
  outside i j hQ := h.outside i j fun hP => hQ ((hPQ i j).mp hP)

theorem Painted.trans (h1 : Painted pp pp1 P b) (h2 : Painted pp1 pp2 Q b) :
    Painted pp pp2 (fun i j => P i j ∨ Q i j) b where
  sized := h2.sized
  nlin := h2.nlin.trans h1.nlin
  ncol := h2.ncol.trans h1.ncol
  inside i j h := by
    by_cases hQ : Q i j
    · exact h2.inside i j hQ
    · rw [h2.outside i j hQ]
      exact h1.inside i j (h.resolve_right hQ)
  outside i j h := by
    obtain ⟨hP, hQ⟩ := not_or.mp h
    rw [h2.outside i j hQ, h1.outside i j hP]

/-- A loop paints what its turns paint. -/
theorem painted_run {step : Process → Nat → Res Process} {P : Nat → Nat → Nat → Prop}
    (l : List Nat) : ∀ (pp : Process), pp.Sized →
    (∀ a ∈ l, ∀ pp1, pp1.Sized → pp1.nlin = pp.nlin → pp1.ncol = pp.ncol →
      ∃ pp2, step pp1 a = .ok pp2 ∧ Painted pp1 pp2 (P a) b) →
    ∃ pp', run step pp l = .ok pp' ∧ Painted pp pp' (fun i j => ∃ a ∈ l, P a i j) b := by
  induction l with
  | nil =>
    intro pp hpp _
    exact ⟨pp, rfl, hpp, rfl, rfl, fun i j h => absurd h (by simp), fun _ _ _ => rfl⟩
  | cons a l ih =>
    intro pp hpp hstep
    obtain ⟨pp1, h1, hp1⟩ := hstep a List.mem_cons_self pp hpp rfl rfl
    have hrest : ∀ c ∈ l, ∀ pp2, pp2.Sized → pp2.nlin = pp1.nlin → pp2.ncol = pp1.ncol →
        ∃ pp3, step pp2 c = .ok pp3 ∧ Painted pp2 pp3 (P c) b := by
      intro c hc pp2 h2 hl hw
      exact hstep c (List.mem_cons_of_mem a hc) pp2 h2 (hl.trans hp1.nlin) (hw.trans hp1.ncol)
    obtain ⟨pp', hrun, hp'⟩ := ih pp1 hp1.sized hrest
    refine ⟨pp', by rw [run_cons, h1, ok_bind, hrun], (hp1.trans hp').congr fun i j => ?_⟩
    simp

end

theorem termPutchar_spec {pp : Process} (h : pp.Sized) {pos : Pos} (hrow : pos.tpRow < pp.nlin)
    (hcol : pos.tpCol < pp.ncol) (ch : UInt32) : ∃ pp', termPutchar pp pos ch = .ok pp' ∧
      Painted pp pp' (fun i j => i = pos.tpRow ∧ j = pos.tpCol) (termChar ch) := by
  have hfit : pos.tpCol + [termChar ch].length ≤ pp.ncol + 1 := by
    rw [List.length_singleton]
    omega
  obtain ⟨pp', hstore, hre⟩ := h.store hrow hfit
  have hput := @getElem?_put (pp.row pos.tpRow) [termChar ch] pos.tpCol
    (by rw [h.ncol _ hrow]; exact hfit)
  refine ⟨pp', ?_, hre.sized, hre.nlin, hre.ncol, ?_, ?_⟩
  · rw [termPutchar, decide_eq_true hrow, check_true, ok_bind, decide_eq_true hcol, check_true,
      ok_bind, hstore]
  · rintro i j ⟨rfl, rfl⟩
    rw [Process.cell, hre.row, Function.update_self, hput, if_pos (by simp), Nat.sub_self]
    rfl
  · intro i j hout
    rw [Process.cell, hre.row]
    by_cases hi : i = pos.tpRow
    · subst hi
      have hj : ¬j = pos.tpCol := fun hj => hout ⟨rfl, hj⟩
      rw [Function.update_self, hput, if_neg (by rw [List.length_singleton]; omega)]
      rfl
    · rw [Function.update_of_ne hi]
      rfl

/-- The cell is one of the rectangle. -/
def Rect.Contains (r : Rect) (i j : Nat) : Prop :=
  (r.trBegin.tpRow ≤ i ∧ i < r.trEnd.tpRow) ∧ r.trBegin.tpCol ≤ j ∧ j < r.trEnd.tpCol

instance (r : Rect) (i j : Nat) : Decidable (r.Contains i j) := inferInstanceAs (Decidable (_ ∧ _))

theorem mem_range'_sub {b e k : Nat} : k ∈ List.range' b (e - b) ↔ b ≤ k ∧ k < e := by
  rw [List.mem_range'_1]
  omega

theorem termFill_spec {pp : Process} (h : pp.Sized) {r : Rect}
    (hr : ∀ i j, r.Contains i j → i < pp.nlin ∧ j < pp.ncol) (c : UInt32) :
    ∃ pp', termFill pp r c = .ok pp' ∧ Painted pp pp' r.Contains (termChar c) := by
  have hrow : ∀ row ∈ List.range' r.trBegin.tpRow (r.trEnd.tpRow - r.trBegin.tpRow),
      ∀ pp1 : Process, pp1.Sized → pp1.nlin = pp.nlin → pp1.ncol = pp.ncol →
      ∃ pp2, fillRow r c pp1 row = .ok pp2 ∧ Painted pp1 pp2
        (fun i j => ∃ col ∈ List.range' r.trBegin.tpCol (r.trEnd.tpCol - r.trBegin.tpCol),
          i = row ∧ j = col) (termChar c) := by
    intro row hrow pp1 h1 hl hw
    refine painted_run _ pp1 h1 fun col hcol pp2 h2 hl2 hw2 => ?_
    obtain ⟨hi, hj⟩ := hr row col ⟨mem_range'_sub.mp hrow, mem_range'_sub.mp hcol⟩
    exact @termPutchar_spec pp2 h2 ⟨row, col⟩ (by rw [hl2, hl]; exact hi)
      (by rw [hw2, hw]; exact hj) c
  obtain ⟨pp', hrun, hp⟩ := painted_run _ pp h hrow
  refine ⟨pp', hrun, hp.congr fun i j => ?_⟩
  constructor
  · rintro ⟨row, hrow, col, hcol, rfl, rfl⟩
    exact ⟨mem_range'_sub.mp hrow, mem_range'_sub.mp hcol⟩
  · rintro ⟨hi, hj⟩
    exact ⟨i, mem_range'_sub.mpr hi, j, mem_range'_sub.mpr hj, rfl, rfl⟩

end Term
end VTest
