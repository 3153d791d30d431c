import VTest.Event.Pages
import VTest.Lib.Run

/-!
# VTest.Event.Vbh

The binary heap of `vbh.c`: `VBH_insert`, `VBH_delete` and `VBH_reorder` over the tree of pages.

A heap knows its items by address only. Its user compares them (`cmp`) and is told about every
place that an item comes to (`update`), both with a state of the user's own. The array is a
sequence of rows of `ROW_WIDTH` places that come and go. A place that `malloc` has just given holds
`junk`; to read it, or a place behind the last row, is undefined. That there is memory for another
row is assumed, and so are the `rows` pointers to them.

* `Sound`: every place below `next` holds an item, and the user has been told so.
* `trickleup_spec`, `trickledown_spec`: the two walks, from a place that may be out of order.
* `vbhInsert_spec`, `vbhDelete_spec`, `vbhReorder_spec`: the order is kept, and the items are those
  of before and the new one, or those without the one that is deleted.
-/

namespace VTest
namespace Event

open HeapOrder

/-- `ROW_WIDTH`. -/
def rowWidth : Nat := 2 ^ 16

/-- `ROOT_IDX`. -/
def rootIdx : Nat := 1

/-- `VBH_NOIDX`. -/
def vbhNoidx : Nat := 0

/-- A place of the array. -/
inductive Slot (α : Type) where
  | junk
  | null
  | item (p : α)
  deriving DecidableEq, Repr

structure Vbh (α : Type) where
  array : Nat → Slot α
  length : Nat
  next : Nat
  pageShift : Nat

/-- The two functions of the user, with what `priv` and the items point to. -/
structure Client (σ α : Type) where
  cmp : σ → α → α → Bool
  update : σ → α → Nat → Res σ

variable {σ ρ β α : Type}

namespace Vbh

/-- `A(bh, u)`, which is not to be `NULL`. -/
def get (bh : Vbh α) (u : Nat) : Res α :=
  if u < bh.length then
    match bh.array u with
    | .junk => .error .ub
    | .null => .error .assert
    | .item p => .ok p
  else .error .ub

/-- `A(bh, u) = x`. -/
def set (bh : Vbh α) (u : Nat) (x : Slot α) : Res (Vbh α) :=
  if u < bh.length then .ok { bh with array := Function.update bh.array u x } else .error .ub

end Vbh

def vbhAddrow (bh : Vbh α) : Vbh α where
  array u := if bh.length ≤ u ∧ u < bh.length + rowWidth then .junk else bh.array u
  length := (bh.length + rowWidth) % 2 ^ 32
  next := bh.next
  pageShift := bh.pageShift

/-- `s` is the `page_shift` of the machine. -/
def vbhNew (s : Nat) : Vbh α :=
  let bh := vbhAddrow { array := fun _ => .junk, length := 0, next := rootIdx, pageShift := s }
  { bh with array := Function.update bh.array rootIdx .null }

def vbhUpdate (cl : Client σ α) (bh : Vbh α) (s : σ) (u : Nat) : Res σ := do
  check (u < bh.next)
  let p ← bh.get u
  cl.update s p u

def binheadSwap (cl : Client σ α) (bh : Vbh α) (s : σ) (u v : Nat) : Res (Vbh α × σ) := do
  check (u < bh.next)
  let p ← bh.get u
  check (v < bh.next)
  let q ← bh.get v
  let bh ← bh.set u (.item q)
  let bh ← bh.set v (.item p)
  let s ← vbhUpdate cl bh s u
  let s ← vbhUpdate cl bh s v
  return (bh, s)

/-- `vbh_trickleup`. The first argument bounds the steps. -/
def vbhTrickleup (cl : Client σ α) : Nat → Vbh α → σ → Nat → Res (Vbh α × σ × Nat)
  | 0, _, _, _ => .error .fuel
  | fuel + 1, bh, s, u => do
    check (u < bh.next)
    let p ← bh.get u
    if u > rootIdx then
      check (u ≠ uintMax)
      let v := parent bh.pageShift u
      check (v < u)
      check (v < bh.next)
      let q ← bh.get v
      if cl.cmp s p q then
        let r ← binheadSwap cl bh s u v
        vbhTrickleup cl fuel r.1 r.2 v
      else return (bh, s, u)
    else return (bh, s, u)

/-- The child that `vbh_trickledown` goes on with. -/
def pickChild (cl : Client σ α) (bh : Vbh α) (s : σ) (v1 v2 : Nat) : Res Nat := do
  let p1 ← bh.get v1
  if v1 ≠ v2 ∧ v2 < bh.next then
    let p2 ← bh.get v2
    return if cl.cmp s p2 p1 then v2 else v1
  else return v1

/-- `vbh_trickledown`. The first argument bounds the steps. -/
def vbhTrickledown (cl : Client σ α) : Nat → Vbh α → σ → Nat → Res (Vbh α × σ × Nat)
  | 0, _, _, _ => .error .fuel
  | fuel + 1, bh, s, u => do
    check (u < bh.next)
    let p ← bh.get u
    let v := child bh.pageShift u
    check (v.1 > 0)
    check (v.2 > 0)
    check (v.1 ≤ v.2)
    if v.1 ≥ bh.next then return (bh, s, u)
    else
      let c ← pickChild cl bh s v.1 v.2
      check (c < bh.next)
      let q ← bh.get c
      if cl.cmp s p q then return (bh, s, u)
      else
        let r ← binheadSwap cl bh s u c
        vbhTrickledown cl fuel r.1 r.2 c

def vbhInsert (cl : Client σ α) (bh : Vbh α) (s : σ) (p : α) : Res (Vbh α × σ) := do
  check (bh.length ≥ bh.next)
  let bh := if bh.length = bh.next then vbhAddrow bh else bh
  check (bh.length > bh.next)
  let u := bh.next
  let bh := { bh with next := (bh.next + 1) % 2 ^ 32 }
  let bh ← bh.set u (.item p)
  let s ← vbhUpdate cl bh s u
  let r ← vbhTrickleup cl (u + 1) bh s u
  check (u < r.1.next)
  let _ ← r.1.get u
  return (r.1, r.2.1)

/-- The two walks of `VBH_delete` and `VBH_reorder`, with what is asserted between them. -/
def trickle (cl : Client σ α) (bh : Vbh α) (s : σ) (idx : Nat) : Res (Vbh α × σ) := do
  let r ← vbhTrickleup cl (idx + 1) bh s idx
  check (r.2.2 < r.1.next)
  check (r.2.2 > 0)
  let _ ← r.1.get r.2.2
  let r ← vbhTrickledown cl r.1.next r.1 r.2.1 r.2.2
  check (r.2.2 < r.1.next)
  check (r.2.2 > 0)
  let _ ← r.1.get r.2.2
  return (r.1, r.2.1)

/-- What `VBH_delete` does last. -/
def returnRow (bh : Vbh α) : Vbh α :=
  if bh.next + 2 * rowWidth ≤ bh.length then
    { bh with
      array := fun u =>
        if bh.length - rowWidth ≤ u ∧ u < bh.length then .junk else bh.array u
      length := bh.length - rowWidth }
  else bh

def vbhDelete (cl : Client σ α) (bh : Vbh α) (s : σ) (idx : Nat) : Res (Vbh α × σ) := do
  check (bh.next > rootIdx)
  check (idx < bh.next)
  check (idx > 0)
  let p ← bh.get idx
  let s ← cl.update s p vbhNoidx
  let bh := { bh with next := bh.next - 1 }
  if idx = bh.next then
    let bh ← bh.set bh.next .null
    return (bh, s)
  else
    let q ← bh.get bh.next
    let bh ← bh.set idx (.item q)
    let bh ← bh.set bh.next .null
    let s ← vbhUpdate cl bh s idx
    let r ← trickle cl bh s idx
    return (returnRow r.1, r.2)

def vbhReorder (cl : Client σ α) (bh : Vbh α) (s : σ) (idx : Nat) : Res (Vbh α × σ) := do
  check (bh.next > rootIdx)
  check (idx < bh.next)
  check (idx > 0)
  let _ ← bh.get idx
  trickle cl bh s idx

/-- `VBH_root`: `NULL` of an empty heap. -/
def vbhRoot (bh : Vbh α) : Res (Option α) :=
  if rootIdx < bh.length then
    match bh.array rootIdx with
    | .junk => .error .ub
    | .null => .ok none
    | .item p => .ok (some p)
  else .error .ub

/-! ## What the user can rely on -/

/-- What there is to see of the user's state: the place that an item has been told, a table by
place, how many places it has, and the rest, which decides how items compare and what their entry
in the table is. -/
structure Views (σ ρ β α : Type) where
  idx : σ → α → Nat
  tab : σ → Nat → β
  rest : σ → ρ
  room : ρ → Nat
  entry : ρ → α → β

/-- The order that `cmp` stands for. -/
def Before (cl : Client σ α) (s : σ) (p q : α) : Prop := cl.cmp s p q = true

/-- `update` notes the place of one item, and `cmp` is an order that does not look at places. -/
structure Client.Lawful [DecidableEq α] (cl : Client σ α) (w : Views σ ρ β α) : Prop where
  cmp_congr : ∀ {s s'}, w.rest s' = w.rest s → cl.cmp s' = cl.cmp s
  weak : ∀ s, StrictWeak (Before cl s)
  update_ok : ∀ s p u, u < w.room (w.rest s) → ∃ s', cl.update s p u = .ok s' ∧
    w.idx s' = Function.update (w.idx s) p u ∧ w.rest s' = w.rest s ∧
    w.tab s' = if u = vbhNoidx then w.tab s
      else Function.update (w.tab s) u (w.entry (w.rest s) p)

theorem Vbh.set_ok {bh : Vbh α} {u : Nat} (hu : u < bh.length) (x : Slot α) :
    bh.set u x = .ok { bh with array := Function.update bh.array u x } :=
  if_pos hu

theorem vbhNew_length (k : Nat) : (vbhNew k : Vbh α).length = rowWidth :=
  show (0 + rowWidth) % 2 ^ 32 = rowWidth by decide +kernel

variable [Inhabited α]

/-- The item in a place. -/
def Vbh.at (bh : Vbh α) (u : Nat) : α :=
  match bh.array u with
  | .item p => p
  | _ => default

/-- The items of a heap. -/
def Vbh.Mem (bh : Vbh α) (p : α) : Prop := ∃ u, 1 ≤ u ∧ u < bh.next ∧ bh.at u = p

/-- The array is in order as memory. -/
structure Vbh.Valid (bh : Vbh α) : Prop where
  pages : 2 ≤ bh.pageShift
  pos : 1 ≤ bh.next
  le : bh.next ≤ bh.length
  row : rowWidth ≤ bh.length
  small : bh.next + rowWidth < 2 ^ 32
  slot : ∀ u, 1 ≤ u → u < bh.next → bh.array u = .item (bh.at u)
  empty : bh.next = 1 → bh.array 1 = .null

/-- The user knows the place of each item. -/
structure Told (w : Views σ ρ β α) (bh : Vbh α) (s : σ) : Prop where
  idx : ∀ u, 1 ≤ u → u < bh.next → w.idx s (bh.at u) = u
  room : bh.next ≤ w.room (w.rest s)

/-- The user's table has the entry of each item, but perhaps for the one in `hole`. -/
def Mirror (w : Views σ ρ β α) (bh : Vbh α) (s : σ) (hole : Nat) : Prop :=
  ∀ u, 1 ≤ u → u < bh.next → u ≠ hole → w.tab s u = w.entry (w.rest s) (bh.at u)

structure Sound (w : Views σ ρ β α) (bh : Vbh α) (s : σ) : Prop where
  valid : bh.Valid
  told : Told w bh s
  mirror : Mirror w bh s 0

/-- What a walk leaves as it was. -/
structure Kept (w : Views σ ρ β α) (bh : Vbh α) (s : σ) (bh' : Vbh α) (s' : σ) : Prop where
  next : bh'.next = bh.next
  length : bh'.length = bh.length
  pageShift : bh'.pageShift = bh.pageShift
  rest : w.rest s' = w.rest s
  mem : ∀ p, bh'.Mem p ↔ bh.Mem p
  idx : ∀ p, ¬bh.Mem p → w.idx s' p = w.idx s p

section

variable {w : Views σ ρ β α} {bh bh' bh'' : Vbh α} {s s' s'' : σ}

theorem Kept.refl (w : Views σ ρ β α) (bh : Vbh α) (s : σ) : Kept w bh s bh s :=
  ⟨rfl, rfl, rfl, rfl, fun _ => Iff.rfl, fun _ _ => rfl⟩

theorem Kept.trans (h : Kept w bh s bh' s') (h' : Kept w bh' s' bh'' s'') :
    Kept w bh s bh'' s'' where
  next := h'.next.trans h.next
  length := h'.length.trans h.length
  pageShift := h'.pageShift.trans h.pageShift
  rest := h'.rest.trans h.rest
  mem p := (h'.mem p).trans (h.mem p)
  idx p hp := (h'.idx p fun hm => hp ((h.mem p).mp hm)).trans (h.idx p hp)

/-- No item is in two places. -/
theorem Told.inj (h : Told w bh s) {u v : Nat} (hu : 1 ≤ u) (hun : u < bh.next) (hv : 1 ≤ v)
    (hvn : v < bh.next) (heq : bh.at u = bh.at v) : u = v := by
  rw [← h.idx u hu hun, heq, h.idx v hv hvn]

theorem Vbh.Valid.get (h : bh.Valid) {u : Nat} (hu : 1 ≤ u) (hun : u < bh.next) :
    bh.get u = .ok (bh.at u) := by
  have hle := h.le
  rw [Vbh.get, if_pos (by omega), h.slot u hu hun]

theorem Vbh.at_congr {u : Nat} (h : bh'.array u = bh.array u) : bh'.at u = bh.at u := by
  rw [Vbh.at, h, Vbh.at]

theorem Vbh.at_of_item {u : Nat} {p : α} (h : bh.array u = .item p) : bh.at u = p := by
  rw [Vbh.at, h]

@[simp] theorem Vbh.at_update (array : Nat → Slot α) (l n k u : Nat) (p : α) :
    (Vbh.mk (Function.update array u (.item p)) l n k).at =
      Function.update (Vbh.mk array l n k).at u p := by
  funext v
  by_cases hv : v = u
  · subst hv
    simp [Vbh.at]
  · simp [Vbh.at, hv]

theorem vbhNew_valid {k : Nat} (hk : 2 ≤ k) : (vbhNew k : Vbh α).Valid := by
  have hwidth : 1 ≤ rowWidth := by decide
  refine ⟨hk, le_rfl, ?_, ?_, ?_, fun u hu hun => ?_, fun _ => ?_⟩
  · rw [vbhNew_length]
    exact hwidth
  · rw [vbhNew_length]
  · show 1 + rowWidth < 2 ^ 32
    decide
  · have : u < 1 := hun
    omega
  · rw [vbhNew]
    dsimp only
    rw [rootIdx, Function.update_self]

/-- A row is added when the last one is full. -/
theorem withRow_spec (hv : bh.Valid) (hsmall : bh.next + 1 + rowWidth < 2 ^ 32) :
    ∃ bh0 : Vbh α, (if bh.length = bh.next then vbhAddrow bh else bh) = bh0 ∧
      bh0.next < bh0.length ∧ rowWidth ≤ bh0.length ∧ bh0.next = bh.next ∧
      bh0.pageShift = bh.pageShift ∧ (∀ u, u < bh.next → bh0.array u = bh.array u) := by
  have hle := hv.le
  have hrow := hv.row
  by_cases hfull : bh.length = bh.next
  · have hmod : (bh.length + rowWidth) % 2 ^ 32 = bh.length + rowWidth :=
      Nat.mod_eq_of_lt (by omega)
    have hwidth : 0 < rowWidth := by decide
    refine ⟨vbhAddrow bh, if_pos hfull, ?_, ?_, rfl, rfl, fun u hu => ?_⟩
    · rw [vbhAddrow]
      dsimp only
      omega
    · rw [vbhAddrow]
      dsimp only
      omega
    · exact if_neg (by omega)
  · exact ⟨bh, if_neg hfull, by omega, hrow, rfl, rfl, fun _ _ => rfl⟩

/-- The last row that `VBH_delete` gives back holds no item. -/
theorem returnRow_spec (h : Sound w bh s) : Sound w (returnRow bh) s ∧
    (returnRow bh).next = bh.next ∧ (returnRow bh).pageShift = bh.pageShift ∧
    ∀ u, u < bh.next → (returnRow bh).at u = bh.at u := by
  by_cases hmany : bh.next + 2 * rowWidth ≤ bh.length
  · have harr : ∀ u, u < bh.next → (returnRow bh).array u = bh.array u := by
      intro u hu
      have hlow : ¬(bh.length - rowWidth ≤ u ∧ u < bh.length) := by omega
      rw [returnRow, if_pos hmany]
      dsimp only
      rw [if_neg hlow]
    have hat : ∀ u, u < bh.next → (returnRow bh).at u = bh.at u :=
      fun u hu => Vbh.at_congr (harr u hu)
    have hlen : (returnRow bh).length = bh.length - rowWidth := by
      rw [returnRow, if_pos hmany]
    have hnext : (returnRow bh).next = bh.next := by
      rw [returnRow, if_pos hmany]
    have hpage : (returnRow bh).pageShift = bh.pageShift := by
      rw [returnRow, if_pos hmany]
    refine ⟨⟨⟨hpage ▸ h.valid.pages, hnext ▸ h.valid.pos, by rw [hnext, hlen]; omega,
      by rw [hlen]; omega, hnext ▸ h.valid.small, fun u hu hun => ?_, fun h1 => ?_⟩,
      ⟨fun u hu hun => ?_, hnext ▸ h.told.room⟩, fun u hu hun h0 => ?_⟩, hnext, hpage, hat⟩
    · rw [hnext] at hun
      rw [harr u hun, hat u hun, h.valid.slot u hu hun]
    · rw [hnext] at h1
      have hwidth : 1 < rowWidth := by decide
      have hlow : ¬(bh.length - rowWidth ≤ 1 ∧ 1 < bh.length) := by omega
      rw [← h.valid.empty h1, returnRow, if_pos hmany]
      dsimp only
      rw [if_neg hlow]
    · rw [hnext] at hun
      rw [hat u hun, h.told.idx u hu hun]
    · rw [hnext] at hun
      rw [hat u hun]
      exact h.mirror u hu hun h0
  · rw [returnRow, if_neg hmany]
    exact ⟨h, rfl, rfl, fun _ _ => rfl⟩

end

section Walks

variable [DecidableEq α] {cl : Client σ α} {w : Views σ ρ β α} (hl : cl.Lawful w)
include hl

variable {bh : Vbh α} {s : σ}

theorem vbhUpdate_ok (hv : bh.Valid) {u : Nat} (hu : 1 ≤ u) (hun : u < bh.next)
    (hroom : u < w.room (w.rest s)) : ∃ s', vbhUpdate cl bh s u = .ok s' ∧
      w.idx s' = Function.update (w.idx s) (bh.at u) u ∧ w.rest s' = w.rest s ∧
      w.tab s' = Function.update (w.tab s) u (w.entry (w.rest s) (bh.at u)) := by
  obtain ⟨s', hs', hidx, hrest, htab⟩ := hl.update_ok s (bh.at u) u hroom
  refine ⟨s', ?_, hidx, hrest, ?_⟩
  · rw [vbhUpdate, decide_eq_true hun, check_true, ok_bind, hv.get hu hun, ok_bind, hs']
  · rw [htab, if_neg (by rw [vbhNoidx]; omega)]

/-- An exchange, of which the user is told at once. -/
theorem binheadSwap_spec (h : Sound w bh s) {u v : Nat} (hu : 1 ≤ u) (hun : u < bh.next)
    (hv : 1 ≤ v) (hvn : v < bh.next) (huv : u ≠ v) :
    ∃ bh' s', binheadSwap cl bh s u v = .ok (bh', s') ∧ Sound w bh' s' ∧ Kept w bh s bh' s' ∧
      bh'.at = swapAt bh.at u v := by
  have hle := h.valid.le
  have hroom := h.told.room
  let bh' : Vbh α :=
    { bh with
      array := Function.update (Function.update bh.array u (.item (bh.at v))) v
        (.item (bh.at u)) }
  have hat : bh'.at = swapAt bh.at u v := by
    funext i
    rw [Vbh.at_update, Vbh.at_update]
    by_cases hiv : i = v
    · rw [hiv, Function.update_self, swapAt_right]
    by_cases hiu : i = u
    · rw [hiu, Function.update_of_ne huv, Function.update_self, swapAt_left]
    · rw [Function.update_of_ne hiv, Function.update_of_ne hiu, swapAt_of_ne hiu hiv]
  have hvalid : bh'.Valid := by
    refine ⟨h.valid.pages, h.valid.pos, hle, h.valid.row, h.valid.small, fun i hi hin => ?_,
      fun h1 => ?_⟩
    · rw [hat]
      by_cases hiv : i = v
      · rw [hiv, swapAt_right]
        exact Function.update_self ..
      by_cases hiu : i = u
      · rw [hiu, swapAt_left]
        exact (Function.update_of_ne huv ..).trans (Function.update_self ..)
      · rw [swapAt_of_ne hiu hiv, ← h.valid.slot i hi hin]
        exact (Function.update_of_ne hiv ..).trans (Function.update_of_ne hiu ..)
    · have : bh.next = 1 := h1
      omega
  obtain ⟨s1, hs1, hidx1, hrest1, htab1⟩ := vbhUpdate_ok hl hvalid hu hun
    (s := s) (show u < w.room (w.rest s) by omega)
  obtain ⟨s2, hs2, hidx2, hrest2, htab2⟩ := vbhUpdate_ok hl hvalid hv hvn
    (s := s1) (show v < w.room (w.rest s1) by rw [hrest1]; omega)
  have hrest : w.rest s2 = w.rest s := hrest2.trans hrest1
  rw [hat, swapAt_left] at hidx1 htab1
  rw [hat, swapAt_right, hidx1] at hidx2
  rw [hat, swapAt_right, htab1, hrest1] at htab2
  refine ⟨bh', s2, ?_, ⟨hvalid, ⟨fun i hi hin => ?_, ?_⟩, fun i hi hin _ => ?_⟩,
    ⟨rfl, rfl, rfl, hrest, fun p => ?_, fun p hp => ?_⟩, hat⟩
  · rw [binheadSwap, decide_eq_true hun, check_true, ok_bind, h.valid.get hu hun, ok_bind,
      decide_eq_true hvn, check_true, ok_bind, h.valid.get hv hvn, ok_bind,
      Vbh.set_ok (by omega), ok_bind, Vbh.set_ok (by dsimp only; omega), ok_bind, hs1,
      ok_bind, hs2, ok_bind]
    rfl
  · rw [hat, hidx2]
    by_cases hiv : i = v
    · rw [hiv, swapAt_right, Function.update_self]
    by_cases hiu : i = u
    · rw [hiu, swapAt_left, Function.update_of_ne fun he => huv (h.told.inj hu hun hv hvn he.symm),
        Function.update_self]
    · rw [swapAt_of_ne hiu hiv, Function.update_of_ne fun he => hiu (h.told.inj hi hin hu hun he),
        Function.update_of_ne fun he => hiv (h.told.inj hi hin hv hvn he), h.told.idx i hi hin]
  · rw [hrest]
    exact hroom
  · rw [hat, htab2, hrest]
    by_cases hiv : i = v
    · rw [hiv, swapAt_right, Function.update_self]
    by_cases hiu : i = u
    · rw [hiu, swapAt_left, Function.update_of_ne huv, Function.update_self]
    · rw [swapAt_of_ne hiu hiv, Function.update_of_ne hiv, Function.update_of_ne hiu]
      exact h.mirror i hi hin (by omega)
  · rw [Vbh.Mem, hat]
    exact exists_swapAt hu hun hv hvn p
  · rw [hidx2, Function.update_of_ne fun he => hp ⟨u, hu, hun, he.symm⟩,
      Function.update_of_ne fun he => hp ⟨v, hv, hvn, he.symm⟩]

omit [Inhabited α] in
theorem before_congr {s' : σ} (h : w.rest s' = w.rest s) : Before cl s' = Before cl s := by
  funext p q
  rw [Before, Before, hl.cmp_congr h]

variable {k : Nat} (hk : 2 ≤ k)
include hk

/-- The walk up ends where the order holds above. If it could be broken only there, it holds
everywhere. -/
theorem trickleup_spec (fuel : Nat) {u : Nat} (hf : u < fuel) (h : Sound w bh s)
    (hpage : bh.pageShift = k) (hu : 1 ≤ u) (hun : u < bh.next)
    (ha : Around (pageTree k hk) (Before cl s) bh.at bh.next u) :
    ∃ bh' s' u', vbhTrickleup cl fuel bh s u = .ok (bh', s', u') ∧ Sound w bh' s' ∧
      Kept w bh s bh' s' ∧ 1 ≤ u' ∧ u' < bh.next ∧
      DownOk (pageTree k hk) (Before cl s) bh'.at bh.next u' ∧
      (UpOk (pageTree k hk) (Before cl s) bh.at bh.next u →
        HeapOrder.Ordered (pageTree k hk) (Before cl s) bh'.at bh.next) := by
  induction fuel generalizing bh s u with
  | zero => omega
  | succ fuel ih =>
    rw [vbhTrickleup, decide_eq_true hun, check_true, ok_bind, h.valid.get hu hun, ok_bind]
    by_cases h1 : u > rootIdx
    · have h1' : 1 < u := h1
      have hsmall := h.valid.small
      have hmax : u ≠ uintMax := by
        rw [uintMax]
        omega
      obtain ⟨hp1, hpu⟩ := parent_lt hk h1'
      rw [if_pos h1, decide_eq_true hmax, check_true, ok_bind, hpage]
      dsimp only
      rw [decide_eq_true hpu, check_true, ok_bind, decide_eq_true (hpu.trans hun), check_true,
        ok_bind, h.valid.get hp1 (hpu.trans hun), ok_bind]
      by_cases hlt : cl.cmp s (bh.at u) (bh.at (parent k u)) = true
      · obtain ⟨bh1, s1, hsw, hs1, hk1, hat⟩ := binheadSwap_spec hl h hu hun hp1
          (show parent k u < bh.next by omega) (by omega)
        have hb := before_congr hl hk1.rest
        have hup : Around (pageTree k hk) (Before cl s1) bh1.at bh1.next (parent k u) := by
          rw [hb, hat, hk1.next]
          exact ha.up (hl.weak s) h1' hun
        obtain ⟨bh2, s2, u2, hrun, hs2, hk2, hu2, hun2, hd, ho⟩ := ih (by omega) hs1
          (hk1.pageShift.trans hpage) hp1 (by rw [hk1.next]; omega) hup
        rw [hb, hk1.next] at hd ho
        refine ⟨bh2, s2, u2, ?_, hs2, hk1.trans hk2, hu2, by rw [← hk1.next]; exact hun2, hd,
          fun hok => ho ?_⟩
        · rw [if_pos hlt, hsw, ok_bind, hrun]
        · rw [hat]
          exact hok.up (hl.weak s) h1' hun hlt
      · rw [if_neg hlt]
        exact ⟨bh, s, u, rfl, h, Kept.refl w bh s, hu, hun, ⟨ha, fun _ => hlt⟩,
          fun hok => hok.ordered fun _ => hlt⟩
    · rw [if_neg h1]
      rw [rootIdx] at h1
      exact ⟨bh, s, u, rfl, h, Kept.refl w bh s, hu, hun, ⟨ha, fun hlt => absurd hlt h1⟩,
        fun hok => hok.ordered fun hlt => absurd hlt h1⟩

/-- The child that is picked has no sibling before it. -/
theorem pickChild_spec (h : Sound w bh s) {u : Nat} (hu : 1 ≤ u)
    (hc : (child k u).1 < bh.next) :
    ∃ c, pickChild cl bh s (child k u).1 (child k u).2 = .ok c ∧ 1 < c ∧ c < bh.next ∧
      parent k c = u ∧
      ∀ v, 1 < v → v < bh.next → parent k v = u → ¬Before cl s (bh.at v) (bh.at c) := by
  have hsmall := h.valid.small
  have hmax : ∀ v, v < bh.next → v < uintMax := by
    intro v hv
    rw [uintMax]
    omega
  have hirr : ∀ p, ¬Before cl s p p := fun p hp => (hl.weak s).asymm hp hp
  have hmem : ∀ v, 1 < v → v < bh.next → parent k v = u → v = (child k u).1 ∨ v = (child k u).2 :=
    fun v h1 hv hp => (mem_child_iff hk hu (hmax v hv)).mpr ⟨h1, hp⟩
  obtain ⟨h11, hp1⟩ := (mem_child_iff hk hu (hmax _ hc)).mp (Or.inl rfl)
  rw [pickChild, h.valid.get (by omega) hc, ok_bind]
  by_cases hboth : (child k u).1 ≠ (child k u).2 ∧ (child k u).2 < bh.next
  · obtain ⟨h12, hp2⟩ := (mem_child_iff hk hu (hmax _ hboth.2)).mp (Or.inr rfl)
    rw [if_pos hboth, h.valid.get (by omega) hboth.2, ok_bind]
    by_cases hlt : cl.cmp s (bh.at (child k u).2) (bh.at (child k u).1) = true
    · rw [if_pos hlt]
      refine ⟨_, rfl, h12, hboth.2, hp2, fun v h1 hv hp => ?_⟩
      rcases hmem v h1 hv hp with rfl | rfl
      · exact (hl.weak s).asymm hlt
      · exact hirr _
    · rw [if_neg hlt]
      refine ⟨_, rfl, h11, hc, hp1, fun v h1 hv hp => ?_⟩
      rcases hmem v h1 hv hp with rfl | rfl
      · exact hirr _
      · exact hlt
  · rw [if_neg hboth]
    refine ⟨_, rfl, h11, hc, hp1, fun v h1 hv hp => ?_⟩
    have hv1 : v = (child k u).1 := by
      rcases hmem v h1 hv hp with hv1 | hv2
      · exact hv1
      · by_contra hne
        exact hboth ⟨fun he => hne (hv2.trans he.symm), hv2 ▸ hv⟩
    rw [hv1]
    exact hirr _

/-- The walk down ends with the order restored. -/
theorem trickledown_spec (fuel : Nat) {u : Nat} (hf : bh.next ≤ u + fuel) (h : Sound w bh s)
    (hpage : bh.pageShift = k) (hu : 1 ≤ u) (hun : u < bh.next)
    (hd : DownOk (pageTree k hk) (Before cl s) bh.at bh.next u) :
    ∃ bh' s' u', vbhTrickledown cl fuel bh s u = .ok (bh', s', u') ∧ Sound w bh' s' ∧
      Kept w bh s bh' s' ∧ 1 ≤ u' ∧ u' < bh.next ∧
      HeapOrder.Ordered (pageTree k hk) (Before cl s) bh'.at bh.next := by
  induction fuel generalizing bh s u with
  | zero => omega
  | succ fuel ih =>
    have hsmall := h.valid.small
    obtain ⟨hc1, hc2⟩ := child_le hk hu
    rw [vbhTrickledown, decide_eq_true hun, check_true, ok_bind, h.valid.get hu hun, ok_bind,
      hpage]
    dsimp only
    rw [decide_eq_true hc1, check_true, ok_bind, decide_eq_true (hc1.trans_le hc2), check_true,
      ok_bind, decide_eq_true hc2, check_true, ok_bind]
    by_cases hend : (child k u).1 ≥ bh.next
    · rw [if_pos hend]
      refine ⟨bh, s, u, rfl, h, Kept.refl w bh s, hu, hun, hd.ordered fun v h1 hv hp => ?_⟩
      have hmem := (mem_child_iff hk hu (show v < uintMax by rw [uintMax]; omega)).mpr ⟨h1, hp⟩
      omega
    · obtain ⟨c, hpick, h1c, hcn, hpc, hmin⟩ := pickChild_spec hl hk h hu (by omega)
      rw [if_neg hend, hpick, ok_bind, decide_eq_true hcn, check_true, ok_bind,
        h.valid.get (by omega) hcn, ok_bind]
      by_cases hlt : cl.cmp s (bh.at u) (bh.at c) = true
      · rw [if_pos hlt]
        refine ⟨bh, s, u, rfl, h, Kept.refl w bh s, hu, hun, hd.ordered fun v h1 hv hp => ?_⟩
        exact (hl.weak s).negTrans (hmin v h1 hv hp) ((hl.weak s).asymm hlt)
      · have hcu : u < c := by
          have := (parent_lt hk h1c).2
          omega
        obtain ⟨bh1, s1, hsw, hs1, hk1, hat⟩ := binheadSwap_spec hl h hu hun (by omega) hcn
          (by omega)
        have hb := before_congr hl hk1.rest
        have hdown : DownOk (pageTree k hk) (Before cl s1) bh1.at bh1.next c := by
          rw [hb, hat, hk1.next]
          exact hd.down h1c hcn hpc hmin hlt
        obtain ⟨bh2, s2, u2, hrun, hs2, hk2, hu2, hun2, ho⟩ := ih (by rw [hk1.next]; omega) hs1
          (hk1.pageShift.trans hpage) (by omega) (by rw [hk1.next]; exact hcn) hdown
        rw [hb, hk1.next] at ho
        refine ⟨bh2, s2, u2, ?_, hs2, hk1.trans hk2, hu2, by rw [← hk1.next]; exact hun2, ho⟩
        rw [if_neg hlt, hsw, ok_bind, hrun]

/-- Both walks, from a place where anything may be. -/
theorem trickle_spec {u : Nat} (h : Sound w bh s) (hpage : bh.pageShift = k) (hu : 1 ≤ u)
    (hun : u < bh.next) (ha : Around (pageTree k hk) (Before cl s) bh.at bh.next u) :
    ∃ bh' s', trickle cl bh s u = .ok (bh', s') ∧ Sound w bh' s' ∧ Kept w bh s bh' s' ∧
      HeapOrder.Ordered (pageTree k hk) (Before cl s) bh'.at bh.next := by
  obtain ⟨bh1, s1, u1, hup, hs1, hk1, hu1, hun1, hd, -⟩ :=
    trickleup_spec hl hk (u + 1) (by omega) h hpage hu hun ha
  have hb := before_congr hl hk1.rest
  rw [← hb, ← hk1.next] at hd
  rw [← hk1.next] at hun1
  obtain ⟨bh2, s2, u2, hdown, hs2, hk2, hu2, hun2, ho⟩ :=
    trickledown_spec hl hk bh1.next (by omega) hs1 (hk1.pageShift.trans hpage) hu1 hun1 hd
  rw [hb, hk1.next] at ho
  rw [← hk2.next] at hun2
  have hpos1 : u1 > 0 := hu1
  have hpos2 : u2 > 0 := hu2
  refine ⟨bh2, s2, ?_, hs2, hk1.trans hk2, ho⟩
  rw [trickle, hup, ok_bind, decide_eq_true hun1, check_true, ok_bind, decide_eq_true hpos1,
    check_true, ok_bind, hs1.valid.get hu1 hun1, ok_bind, hdown, ok_bind, decide_eq_true hun2,
    check_true, ok_bind, decide_eq_true hpos2, check_true, ok_bind, hs2.valid.get hu2 hun2,
    ok_bind]
  rfl

theorem vbhInsert_spec (h : Sound w bh s) (hpage : bh.pageShift = k)
    (hsmall : bh.next + 1 + rowWidth < 2 ^ 32) (hroom : bh.next < w.room (w.rest s))
    (ho : HeapOrder.Ordered (pageTree k hk) (Before cl s) bh.at bh.next) {p : α} (hp : ¬bh.Mem p) :
    ∃ bh' s', vbhInsert cl bh s p = .ok (bh', s') ∧ Sound w bh' s' ∧
      HeapOrder.Ordered (pageTree k hk) (Before cl s') bh'.at bh'.next ∧ bh'.next = bh.next + 1 ∧
      bh'.pageShift = k ∧ w.rest s' = w.rest s ∧ (∀ q, bh'.Mem q ↔ q = p ∨ bh.Mem q) ∧
      (∀ q, q ≠ p → ¬bh.Mem q → w.idx s' q = w.idx s q) := by
  obtain ⟨bh0, hbh0, hlt0, hrow0, hnext0, hpage0, harr0⟩ := withRow_spec h.valid hsmall
  have hpos := h.valid.pos
  let bh1 : Vbh α :=
    { bh0 with array := Function.update bh0.array bh.next (.item p), next := bh.next + 1 }
  have hat0 : ∀ u, u < bh.next → bh1.at u = bh.at u := by
    intro u hu
    rw [Vbh.at_update, Function.update_of_ne (by omega), Vbh.at, harr0 u hu, Vbh.at]
  have hatp : bh1.at bh.next = p := by
    rw [Vbh.at_update, Function.update_self]
  have hv1 : bh1.Valid := by
    refine ⟨by rw [show bh1.pageShift = k from hpage0.trans hpage]; exact hk, by
      show 1 ≤ bh.next + 1; omega, by show bh.next + 1 ≤ bh0.length; omega, hrow0, hsmall,
      fun u hu hun => ?_, fun h1 => ?_⟩
    · by_cases hun' : u = bh.next
      · subst hun'
        rw [hatp]
        exact Function.update_self ..
      · have hlt : u < bh.next := by
          have : u < bh.next + 1 := hun
          omega
        rw [hat0 u hlt, ← h.valid.slot u hu hlt, ← harr0 u hlt]
        exact Function.update_of_ne hun' ..
    · have : bh.next + 1 = 1 := h1
      omega
  obtain ⟨s1, hs1, hidx1, hrest1, htab1⟩ := vbhUpdate_ok hl hv1 hpos
    (show bh.next < bh1.next from Nat.lt_succ_self _) hroom
  rw [hatp] at hidx1 htab1
  have hsound1 : Sound w bh1 s1 := by
    refine ⟨hv1, ⟨fun u hu hun => ?_, by rw [hrest1]; exact hroom⟩, fun u hu hun _ => ?_⟩
    · by_cases hun' : u = bh.next
      · rw [hun', hatp, hidx1, Function.update_self]
      · have hlt : u < bh.next := by
          have : u < bh.next + 1 := hun
          omega
        rw [hat0 u hlt, hidx1, Function.update_of_ne fun he => hp ⟨u, hu, hlt, he⟩,
          h.told.idx u hu hlt]
    · by_cases hun' : u = bh.next
      · rw [hun', hatp, htab1, hrest1, Function.update_self]
      · have hlt : u < bh.next := by
          have : u < bh.next + 1 := hun
          omega
        rw [hat0 u hlt, htab1, hrest1, Function.update_of_ne hun']
        exact h.mirror u hu hlt (by omega)
  have hb1 := before_congr hl hrest1
  have hup : UpOk (pageTree k hk) (Before cl s1) bh1.at bh1.next bh.next := by
    rw [hb1]
    exact ho.upOk_last fun v _ hv => hat0 v hv
  obtain ⟨bh2, s2, u2, hrun, hs2, hk2, -, -, -, ho2⟩ := trickleup_spec hl hk (bh.next + 1)
    (Nat.lt_succ_self _) hsound1 (hpage0.trans hpage) hpos (Nat.lt_succ_self _) hup.toAround
  have hlen : bh.length ≥ bh.next := h.valid.le
  have hnext2 : bh2.next = bh.next + 1 := hk2.next
  have hin : bh.next < bh2.next := by omega
  refine ⟨bh2, s2, ?_, hs2, ?_, hnext2, hk2.pageShift.trans (hpage0.trans hpage),
    hk2.rest.trans hrest1, fun q => ?_, fun q hqp hq => ?_⟩
  · have hmod : (bh0.next + 1) % 2 ^ 32 = bh.next + 1 := by
      rw [hnext0]
      exact Nat.mod_eq_of_lt (by omega)
    rw [vbhInsert, decide_eq_true hlen, check_true, ok_bind, hbh0]
    dsimp only
    have hset : Vbh.set { bh0 with next := bh.next + 1 } bh.next (.item p) = .ok bh1 :=
      Vbh.set_ok (by dsimp only; omega) _
    rw [decide_eq_true hlt0, check_true, ok_bind, hmod, hnext0, hset, ok_bind, hs1, ok_bind, hrun,
      ok_bind, decide_eq_true hin, check_true, ok_bind, hs2.valid.get hpos hin, ok_bind]
    rfl
  · rw [before_congr hl hk2.rest, hk2.next]
    exact ho2 hup
  · rw [hk2.mem]
    constructor
    · rintro ⟨u, hu, hun, rfl⟩
      by_cases hun' : u = bh.next
      · exact Or.inl (by rw [hun', hatp])
      · have hlt : u < bh.next := by
          have : u < bh.next + 1 := hun
          omega
        exact Or.inr ⟨u, hu, hlt, (hat0 u hlt).symm⟩
    · rintro (rfl | ⟨u, hu, hun, rfl⟩)
      · exact ⟨bh.next, hpos, Nat.lt_succ_self _, hatp⟩
      · exact ⟨u, hu, hun.trans (Nat.lt_succ_self _), hat0 u hun⟩
  · rw [hk2.idx q, hidx1, Function.update_of_ne hqp]
    rintro ⟨u, hu, hun, rfl⟩
    by_cases hun' : u = bh.next
    · exact hqp (by rw [hun', hatp])
    · have hlt : u < bh.next := by
        have : u < bh.next + 1 := hun
        omega
      exact hq ⟨u, hu, hlt, (hat0 u hlt).symm⟩

/-- The heap after the tail has gone. -/
def Vbh.dropTail (bh : Vbh α) (n : Nat) : Vbh α :=
  { bh with array := Function.update bh.array n .null, next := n }

/-- The heap after the tail has gone to the place `u`. -/
def Vbh.fillHole (bh : Vbh α) (n u : Nat) : Vbh α :=
  { bh with
    array := Function.update (Function.update bh.array u (.item (bh.at n))) n .null, next := n }

omit hl hk [DecidableEq α] in
theorem Vbh.dropTail_at {n i : Nat} (hi : i < n) : (bh.dropTail n).at i = bh.at i :=
  Vbh.at_congr (Function.update_of_ne (by omega) ..)

omit hl hk [DecidableEq α] in
theorem Vbh.fillHole_at {n u i : Nat} (hi : i < n) :
    (bh.fillHole n u).at i = if i = u then bh.at n else bh.at i := by
  by_cases hiu : i = u
  · rw [if_pos hiu]
    refine Vbh.at_of_item ((Function.update_of_ne (by omega) ..).trans ?_)
    rw [hiu, Function.update_self]
  · rw [if_neg hiu]
    exact Vbh.at_congr ((Function.update_of_ne (by omega) ..).trans (Function.update_of_ne hiu ..))

omit hl hk [DecidableEq α] in
theorem Vbh.dropTail_valid {n : Nat} (hv : bh.Valid) (hn : bh.next = n + 1) (hpos : 1 ≤ n) :
    (bh.dropTail n).Valid := by
  have hle := hv.le
  have hsmall := hv.small
  refine ⟨hv.pages, hpos, by show n ≤ bh.length; omega, hv.row,
    by show n + rowWidth < 2 ^ 32; omega, fun i hi hin => ?_, fun h1 => ?_⟩
  · have hlt : i < n := hin
    rw [dropTail_at hlt, ← hv.slot i hi (by omega), dropTail]
    dsimp only
    rw [Function.update_of_ne (by omega)]
  · have hone : n = 1 := h1
    rw [dropTail, hone]
    dsimp only
    rw [Function.update_self]

omit hl hk [DecidableEq α] in
theorem Vbh.fillHole_valid {n u : Nat} (hv : bh.Valid) (hn : bh.next = n + 1) (hu : 1 ≤ u)
    (hun : u < n) : (bh.fillHole n u).Valid := by
  have hle := hv.le
  have hsmall := hv.small
  refine ⟨hv.pages, by show 1 ≤ n; omega, by show n ≤ bh.length; omega, hv.row,
    by show n + rowWidth < 2 ^ 32; omega, fun i hi hin => ?_, fun h1 => ?_⟩
  · have hlt : i < n := hin
    rw [fillHole_at hlt]
    refine (Function.update_of_ne (by omega) ..).trans ?_
    by_cases hiu : i = u
    · rw [if_pos hiu, hiu, Function.update_self]
    · rw [if_neg hiu, Function.update_of_ne hiu, hv.slot i hi (by omega)]
  · have : n = 1 := h1
    omega

omit hl hk [DecidableEq α] in
theorem Vbh.mem_dropTail {n : Nat} (ht : Told w bh s) (hn : bh.next = n + 1) (hpos : 1 ≤ n)
    (q : α) : (bh.dropTail n).Mem q ↔ bh.Mem q ∧ q ≠ bh.at n := by
  constructor
  · rintro ⟨i, hi, hin, rfl⟩
    have hlt : i < n := hin
    rw [dropTail_at hlt]
    refine ⟨⟨i, hi, by omega, rfl⟩, fun he => ?_⟩
    have := ht.inj hi (by omega) hpos (by omega) he
    omega
  · rintro ⟨⟨i, hi, hin, rfl⟩, hne⟩
    have hlt : i < n := by
      by_contra hge
      exact hne (by rw [show i = n by omega])
    exact ⟨i, hi, hlt, dropTail_at hlt⟩

omit hl hk [DecidableEq α] in
theorem Vbh.mem_fillHole {n u : Nat} (ht : Told w bh s) (hn : bh.next = n + 1) (hu : 1 ≤ u)
    (hun : u < n) (q : α) : (bh.fillHole n u).Mem q ↔ bh.Mem q ∧ q ≠ bh.at u := by
  have hnn : n < bh.next := by omega
  constructor
  · rintro ⟨i, hi, hin, rfl⟩
    have hlt : i < n := hin
    rw [fillHole_at hlt]
    by_cases hiu : i = u
    · rw [if_pos hiu]
      refine ⟨⟨n, by omega, hnn, rfl⟩, fun he => ?_⟩
      have := ht.inj (by omega) hnn hu (by omega) he
      omega
    · rw [if_neg hiu]
      exact ⟨⟨i, hi, by omega, rfl⟩, fun he => hiu (ht.inj hi (by omega) hu (by omega) he)⟩
  · rintro ⟨⟨i, hi, hin, rfl⟩, hq⟩
    by_cases hin' : i = n
    · exact ⟨u, hu, hun, by rw [fillHole_at hun, if_pos rfl, hin']⟩
    · have hlt : i < n := by omega
      exact ⟨i, hi, hlt, by rw [fillHole_at hlt, if_neg fun he => hq (by rw [he])]⟩

/-- The tail is deleted. -/
theorem deleteTail_spec {n : Nat} {s1 : σ} (hv : bh.Valid) (ht : Told w bh s)
    (hm : Mirror w bh s n) (hn : bh.next = n + 1) (hpos : 1 ≤ n)
    (ha : Around (pageTree k hk) (Before cl s) bh.at bh.next n) (hrest : w.rest s1 = w.rest s)
    (hidx : w.idx s1 = Function.update (w.idx s) (bh.at n) vbhNoidx) (htab : w.tab s1 = w.tab s) :
    Sound w (bh.dropTail n) s1 ∧
      HeapOrder.Ordered (pageTree k hk) (Before cl s1) (bh.dropTail n).at n := by
  have hroom := ht.room
  refine ⟨⟨Vbh.dropTail_valid hv hn hpos, ⟨fun i hi hin => ?_, ?_⟩, fun i hi hin _ => ?_⟩, ?_⟩
  · have hlt : i < n := hin
    rw [Vbh.dropTail_at hlt, hidx, Function.update_of_ne fun he => ?_, ht.idx i hi (by omega)]
    have := ht.inj hi (by omega) hpos (by omega) he
    omega
  · rw [hrest]
    show n ≤ _
    omega
  · have hlt : i < n := hin
    rw [Vbh.dropTail_at hlt, htab, hrest]
    exact hm i hi (by omega) (by omega)
  · rw [before_congr hl hrest]
    rw [hn] at ha
    exact ha.ordered_pred.congr fun v _ hvn => Vbh.dropTail_at hvn

/-- Another item is deleted: the tail takes its place, of which the user is told. -/
theorem deleteHole_spec {n u : Nat} {s1 s2 : σ} (hv : bh.Valid) (ht : Told w bh s)
    (hm : Mirror w bh s u) (hn : bh.next = n + 1) (hu : 1 ≤ u) (hun : u < n)
    (ha : Around (pageTree k hk) (Before cl s) bh.at bh.next u) (hrest1 : w.rest s1 = w.rest s)
    (hidx1 : w.idx s1 = Function.update (w.idx s) (bh.at u) vbhNoidx)
    (htab1 : w.tab s1 = w.tab s) (hrest2 : w.rest s2 = w.rest s1)
    (hidx2 : w.idx s2 = Function.update (w.idx s1) (bh.at n) u)
    (htab2 : w.tab s2 = Function.update (w.tab s1) u (w.entry (w.rest s1) (bh.at n))) :
    Sound w (bh.fillHole n u) s2 ∧
      Around (pageTree k hk) (Before cl s2) (bh.fillHole n u).at n u := by
  have hroom := ht.room
  have hrest : w.rest s2 = w.rest s := hrest2.trans hrest1
  refine ⟨⟨Vbh.fillHole_valid hv hn hu hun, ⟨fun i hi hin => ?_, ?_⟩, fun i hi hin _ => ?_⟩, ?_⟩
  · have hlt : i < n := hin
    rw [Vbh.fillHole_at hlt, hidx2, hidx1]
    by_cases hiu : i = u
    · rw [if_pos hiu, hiu, Function.update_self]
    · rw [if_neg hiu, Function.update_of_ne fun he => ?_, Function.update_of_ne fun he => ?_,
        ht.idx i hi (by omega)]
      · exact hiu (ht.inj hi (by omega) hu (by omega) he)
      · have := ht.inj hi (by omega) (by omega) (by omega) he
        omega
  · rw [hrest]
    show n ≤ _
    omega
  · have hlt : i < n := hin
    rw [Vbh.fillHole_at hlt, htab2, htab1, hrest2, hrest1]
    by_cases hiu : i = u
    · rw [if_pos hiu, hiu, Function.update_self]
    · rw [if_neg hiu, Function.update_of_ne hiu]
      exact hm i hi (by omega) hiu
  · rw [before_congr hl hrest]
    refine (ha.mono (by omega)).congr fun v _ hvn hvu => ?_
    rw [Vbh.fillHole_at hvn, if_neg hvu]

/-- The deleted item may have changed its key, and its entry in the table, before. -/
theorem vbhDelete_spec {u : Nat} (hv : bh.Valid) (ht : Told w bh s) (hm : Mirror w bh s u)
    (hpage : bh.pageShift = k) (hu : 1 ≤ u) (hun : u < bh.next)
    (ha : Around (pageTree k hk) (Before cl s) bh.at bh.next u) :
    ∃ bh' s', vbhDelete cl bh s u = .ok (bh', s') ∧ Sound w bh' s' ∧
      HeapOrder.Ordered (pageTree k hk) (Before cl s') bh'.at bh'.next ∧ bh'.next + 1 = bh.next ∧
      bh'.pageShift = k ∧ w.rest s' = w.rest s ∧ (∀ q, bh'.Mem q ↔ bh.Mem q ∧ q ≠ bh.at u) ∧
      w.idx s' (bh.at u) = vbhNoidx ∧ (∀ q, ¬bh.Mem q → w.idx s' q = w.idx s q) := by
  have hle := hv.le
  have hroom := ht.room
  have hroot : bh.next > rootIdx := by
    rw [rootIdx]
    omega
  have hupos : u > 0 := hu
  have hself : bh.Mem (bh.at u) := ⟨u, hu, hun, rfl⟩
  obtain ⟨s1, hs1, hidx1, hrest1, htab1⟩ := hl.update_ok s (bh.at u) vbhNoidx
    (show vbhNoidx < w.room (w.rest s) by rw [vbhNoidx]; omega)
  rw [if_pos rfl] at htab1
  obtain ⟨n, hn⟩ : ∃ n, bh.next = n + 1 := ⟨bh.next - 1, by omega⟩
  have hpred : bh.next - 1 = n := by omega
  rw [vbhDelete, decide_eq_true hroot, check_true, ok_bind, decide_eq_true hun, check_true,
    ok_bind, decide_eq_true hupos, check_true, ok_bind, hv.get hu hun, ok_bind, hs1, ok_bind]
  dsimp only
  rw [hpred]
  by_cases hlast : u = n
  · subst hlast
    obtain ⟨hsound, ho⟩ := deleteTail_spec hl hk hv ht hm hn hu ha hrest1 hidx1 htab1
    refine ⟨bh.dropTail u, s1, ?_, hsound, ho, hn.symm, hpage, hrest1,
      Vbh.mem_dropTail ht hn hu, ?_, fun q hq => ?_⟩
    · rw [if_pos rfl, Vbh.set_ok (by dsimp only; omega), ok_bind]
      rfl
    · rw [hidx1, Function.update_self]
    · rw [hidx1, Function.update_of_ne]
      rintro rfl
      exact hq hself
  · have hun' : u < n := by omega
    have hnn : n < bh.next := by omega
    have hne : bh.at n ≠ bh.at u := fun he => hlast (ht.inj hu hun (by omega) hnn he.symm)
    have hv2 := Vbh.fillHole_valid hv hn hu hun'
    obtain ⟨s2, hs2, hidx2, hrest2, htab2⟩ := vbhUpdate_ok hl hv2 hu (s := s1)
      (show u < (bh.fillHole n u).next from hun')
      (show u < w.room (w.rest s1) by rw [hrest1]; omega)
    rw [Vbh.fillHole_at hun', if_pos rfl] at hidx2 htab2
    have hrest : w.rest s2 = w.rest s := hrest2.trans hrest1
    have hmem2 := Vbh.mem_fillHole ht hn hu hun'
    obtain ⟨hsound2, ha2⟩ := deleteHole_spec hl hk hv ht hm hn hu hun' ha hrest1 hidx1 htab1
      hrest2 hidx2 htab2
    obtain ⟨bh3, s3, hrun, hs3, hk3, ho3⟩ := trickle_spec hl hk hsound2 hpage hu hun' ha2
    obtain ⟨hsound4, hnext4, hpage4, hat4⟩ := returnRow_spec hs3
    have hn3 : bh3.next = n := hk3.next
    refine ⟨returnRow bh3, s3, ?_, hsound4, ?_, ?_, ?_, hk3.rest.trans hrest, fun q => ?_, ?_,
      fun q hq => ?_⟩
    · have hget : Vbh.get { bh with next := n } n = .ok (bh.at n) := by
        rw [Vbh.get, if_pos (by dsimp only; omega), hv.slot n (by omega) hnn]
      rw [if_neg hlast, hget, ok_bind, Vbh.set_ok (by dsimp only; omega), ok_bind]
      dsimp only
      rw [Vbh.set_ok (by dsimp only; omega), ok_bind]
      have hfill : vbhUpdate cl (bh.fillHole n u) s1 u = .ok s2 := hs2
      rw [Vbh.fillHole] at hfill hrun
      rw [hfill, ok_bind, hrun, ok_bind]
      rfl
    · rw [before_congr hl hk3.rest, hnext4, hk3.next]
      exact ho3.congr fun v _ hvn => hat4 v (by rw [hk3.next]; exact hvn)
    · rw [hnext4, hn3, hn]
    · rw [hpage4, hk3.pageShift]
      exact hpage
    · rw [← hmem2, ← hk3.mem]
      constructor
      · rintro ⟨i, hi, hin, rfl⟩
        rw [hnext4] at hin
        exact ⟨i, hi, hin, (hat4 i hin).symm⟩
      · rintro ⟨i, hi, hin, rfl⟩
        exact ⟨i, hi, by rw [hnext4]; exact hin, hat4 i hin⟩
    · rw [hk3.idx _ fun hq => ((hmem2 _).mp hq).2 rfl, hidx2, hidx1,
        Function.update_of_ne hne.symm, Function.update_self]
    · rw [hk3.idx q fun h2 => hq ((hmem2 q).mp h2).1, hidx2, hidx1, Function.update_of_ne,
        Function.update_of_ne]
      · rintro rfl
        exact hq hself
      · rintro rfl
        exact hq ⟨n, by omega, hnn, rfl⟩

theorem vbhReorder_spec {u : Nat} (h : Sound w bh s) (hpage : bh.pageShift = k) (hu : 1 ≤ u)
    (hun : u < bh.next) (ha : Around (pageTree k hk) (Before cl s) bh.at bh.next u) :
    ∃ bh' s', vbhReorder cl bh s u = .ok (bh', s') ∧ Sound w bh' s' ∧ Kept w bh s bh' s' ∧
      HeapOrder.Ordered (pageTree k hk) (Before cl s') bh'.at bh'.next := by
  obtain ⟨bh1, s1, hrun, hs1, hk1, ho⟩ := trickle_spec hl hk h hpage hu hun ha
  have hroot : bh.next > rootIdx := by
    rw [rootIdx]
    omega
  have hpos : u > 0 := hu
  refine ⟨bh1, s1, ?_, hs1, hk1, ?_⟩
  · rw [vbhReorder, decide_eq_true hroot, check_true, ok_bind, decide_eq_true hun, check_true,
      ok_bind, decide_eq_true hpos, check_true, ok_bind, h.valid.get hu hun, ok_bind, hrun]
  · rw [before_congr hl hk1.rest, hk1.next]
    exact ho

end Walks

end Event
end VTest
