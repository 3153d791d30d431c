import VTest.Event.Vbh

/-!
# VTest.Event.HeapRun

Whole runs of the binary heap, as the test driver of `vbh.c` makes them: items with a key are
inserted, deleted by the index that they were told, and moved after their key has changed. The
heap refines a map from the items in it to their keys.

* `Represents`: the heap and the items stand for a map.
* `heap_refines_map`: so they do after any run, and the root of the heap is an item with the least
  key.
-/

namespace VTest
namespace Event

open HeapOrder

/-- The `idx` and the `key` of each `struct foo`. -/
structure Foos where
  idx : Nat → Nat
  key : Nat → Nat

/-- `cmp` and `update`. -/
def fooClient : Client Foos Nat where
  cmp s a b := s.key a < s.key b
  update s a u := .ok { s with idx := Function.update s.idx a u }

/-- There is no table, and no bound on the places. -/
def fooViews : Views Foos (Nat → Nat) Unit Nat where
  idx := Foos.idx
  tab _ _ := ()
  rest := Foos.key
  room _ := 2 ^ 32
  entry _ _ := ()

theorem before_fooClient {s : Foos} {a b : Nat} :
    Before fooClient s a b ↔ s.key a < s.key b :=
  decide_eq_true_iff

theorem fooClient_lawful : fooClient.Lawful fooViews where
  cmp_congr h := by
    funext a b
    have hkey : _ = _ := h
    rw [fooViews] at hkey
    dsimp only at hkey
    rw [fooClient]
    dsimp only
    rw [hkey]
  weak s := by
    have hkey := StrictWeak.of_key s.key
    rwa [← show Before fooClient s = fun x y => s.key x < s.key y from
      funext fun _ => funext fun _ => propext before_fooClient] at hkey
  update_ok s p u _ := ⟨_, rfl, rfl, rfl, by split <;> rfl⟩

structure Driver where
  bh : Vbh Nat
  ff : Foos

def Driver.new (s : Nat) : Driver := ⟨vbhNew s, ⟨fun _ => vbhNoidx, fun _ => 0⟩⟩

inductive HeapOp where
  | insert (n key : Nat)
  | delete (n : Nat)
  | reorder (n key : Nat)

def Driver.step (d : Driver) : HeapOp → Res Driver
  | .insert n key => do
    let ff : Foos := ⟨Function.update d.ff.idx n vbhNoidx, Function.update d.ff.key n key⟩
    let r ← vbhInsert fooClient d.bh ff n
    return ⟨r.1, r.2⟩
  | .delete n => do
    let r ← vbhDelete fooClient d.bh d.ff (d.ff.idx n)
    check (r.2.idx n = vbhNoidx)
    return ⟨r.1, r.2⟩
  | .reorder n key => do
    let ff : Foos := { d.ff with key := Function.update d.ff.key n key }
    let r ← vbhReorder fooClient d.bh ff (ff.idx n)
    return ⟨r.1, r.2⟩

/-- An item is inserted when it is not in the heap, and while there are indices left. Only items
that are in it are deleted or moved. -/
def Driver.Ok (d : Driver) : HeapOp → Prop
  | .insert n _ => d.ff.idx n = vbhNoidx ∧ d.bh.next + 1 + rowWidth < 2 ^ 32
  | .delete n => d.ff.idx n ≠ vbhNoidx
  | .reorder n _ => d.ff.idx n ≠ vbhNoidx

instance (d : Driver) (op : HeapOp) : Decidable (d.Ok op) := by
  cases op <;> unfold Driver.Ok <;> infer_instance

/-- What the operations do to the map of items and keys. -/
def HeapOp.apply (m : Nat → Option Nat) : HeapOp → Nat → Option Nat
  | .insert n key => Function.update m n (some key)
  | .delete n => Function.update m n none
  | .reorder n key => Function.update m n (some key)

/-- The heap of pages of `2 ^ k` places stands for the map `m`. -/
structure Represents (k : Nat) (hk : 2 ≤ k) (d : Driver) (m : Nat → Option Nat) : Prop where
  sound : Sound fooViews d.bh d.ff
  page : d.bh.pageShift = k
  ordered : HeapOrder.Ordered (pageTree k hk) (Before fooClient d.ff) d.bh.at d.bh.next
  noidx : ∀ n, ¬d.bh.Mem n → d.ff.idx n = vbhNoidx
  mem : ∀ n, d.bh.Mem n ↔ (m n).isSome
  key : ∀ n key, m n = some key → d.ff.key n = key

section

variable {k : Nat} {hk : 2 ≤ k} {d : Driver} {m : Nat → Option Nat}

theorem Represents.new (k : Nat) (hk : 2 ≤ k) : Represents k hk (Driver.new k) fun _ => none := by
  have hnomem : ∀ n, ¬(Driver.new k).bh.Mem n := by
    rintro n ⟨u, hu, hun, -⟩
    have : u < 1 := hun
    omega
  have hroom : (Driver.new k).bh.next ≤ fooViews.room (fooViews.rest (Driver.new k).ff) :=
    show 1 ≤ 2 ^ 32 by decide
  refine ⟨⟨vbhNew_valid hk, ⟨fun u hu hun => ?_, hroom⟩, fun u hu hun => ?_⟩, rfl,
    fun v hv hvn => ?_, fun _ _ => rfl, fun n => ?_, fun _ _ h => by cases h⟩
  · have : u < 1 := hun
    omega
  · have : u < 1 := hun
    omega
  · have : v < 1 := hvn
    omega
  · simpa using hnomem n

/-- An item that has an index has that place. -/
theorem Represents.place (h : Represents k hk d m) {n : Nat} (hn : d.ff.idx n ≠ vbhNoidx) :
    1 ≤ d.ff.idx n ∧ d.ff.idx n < d.bh.next ∧ d.bh.at (d.ff.idx n) = n := by
  have hmem : d.bh.Mem n := by
    by_contra hno
    exact hn (h.noidx n hno)
  obtain ⟨u, hu, hun, hat⟩ := hmem
  have hidx : d.ff.idx (d.bh.at u) = u := h.sound.told.idx u hu hun
  rw [hat] at hidx
  rw [hidx]
  exact ⟨hu, hun, hat⟩

theorem Represents.insert (h : Represents k hk d m) {n key : Nat} (hok : d.Ok (.insert n key)) :
    ∃ d', d.step (.insert n key) = .ok d' ∧
      Represents k hk d' (HeapOp.apply m (.insert n key)) := by
  obtain ⟨hidx, hsmall⟩ := hok
  have hno : ¬d.bh.Mem n := by
    rintro ⟨u, hu, hun, rfl⟩
    have : d.ff.idx (d.bh.at u) = u := h.sound.told.idx u hu hun
    rw [vbhNoidx] at hidx
    omega
  have hne : ∀ u, 1 ≤ u → u < d.bh.next → d.bh.at u ≠ n := fun u hu hun he => hno ⟨u, hu, hun, he⟩
  let ff : Foos := ⟨Function.update d.ff.idx n vbhNoidx, Function.update d.ff.key n key⟩
  have hsound : Sound fooViews d.bh ff := by
    refine ⟨h.sound.valid, ⟨fun u hu hun => ?_, h.sound.told.room⟩, fun _ _ _ _ => rfl⟩
    exact (Function.update_of_ne (hne u hu hun) ..).trans (h.sound.told.idx u hu hun)
  have hord : HeapOrder.Ordered (pageTree k hk) (Before fooClient ff) d.bh.at d.bh.next := by
    intro v hv hvn hlt
    have hp := parent_lt hk hv
    have hlt' : Function.update d.ff.key n key (d.bh.at v) <
        Function.update d.ff.key n key (d.bh.at (parent k v)) := of_decide_eq_true hlt
    rw [Function.update_of_ne (hne v (by omega) hvn),
      Function.update_of_ne (hne _ hp.1 (by omega))] at hlt'
    exact h.ordered v hv hvn (decide_eq_true hlt')
  have hroom : d.bh.next < fooViews.room (fooViews.rest ff) := by
    show d.bh.next < 2 ^ 32
    omega
  obtain ⟨bh', ff', hrun, hs', ho', -, hpage', hrest', hmem', hidx'⟩ :=
    vbhInsert_spec fooClient_lawful hk hsound h.page hsmall hroom hord hno
  have hkey' : ff'.key = Function.update d.ff.key n key := hrest'
  refine ⟨⟨bh', ff'⟩, ?_, hs', hpage', ho', fun q hq => ?_, fun q => ?_, fun q key' hq => ?_⟩
  · rw [Driver.step, hrun, ok_bind]
    rfl
  · have hq' : q ≠ n ∧ ¬d.bh.Mem q := by
      rw [hmem'] at hq
      exact ⟨fun he => hq (Or.inl he), fun hm => hq (Or.inr hm)⟩
    exact (hidx' q hq'.1 hq'.2).trans
      ((Function.update_of_ne hq'.1 ..).trans (h.noidx q hq'.2))
  · rw [hmem', HeapOp.apply]
    by_cases hqn : q = n
    · simp [hqn]
    · rw [Function.update_of_ne hqn, ← h.mem]
      simp [hqn]
  · rw [hkey']
    rw [HeapOp.apply] at hq
    by_cases hqn : q = n
    · rw [hqn, Function.update_self] at hq ⊢
      exact Option.some.inj hq
    · rw [Function.update_of_ne hqn] at hq ⊢
      exact h.key q key' hq

theorem Represents.delete (h : Represents k hk d m) {n : Nat} (hok : d.Ok (.delete n)) :
    ∃ d', d.step (.delete n) = .ok d' ∧ Represents k hk d' (HeapOp.apply m (.delete n)) := by
  obtain ⟨hu, hun, hat⟩ := h.place hok
  have ha := h.ordered.around (fooClient_lawful.weak d.ff) hun
  obtain ⟨bh', ff', hrun, hs', ho', -, hpage', hrest', hmem', hgone, hidx'⟩ :=
    vbhDelete_spec fooClient_lawful hk h.sound.valid h.sound.told
      (fun u hu hun _ => h.sound.mirror u hu hun (by omega)) h.page hu hun ha
  rw [hat] at hmem' hgone
  have hkey' : ff'.key = d.ff.key := hrest'
  have hgone' : ff'.idx n = vbhNoidx := hgone
  refine ⟨⟨bh', ff'⟩, ?_, hs', hpage', ho', fun q hq => ?_, fun q => ?_, fun q key' hq => ?_⟩
  · rw [Driver.step, hrun, ok_bind, decide_eq_true hgone', check_true, ok_bind]
    rfl
  · by_cases hqn : q = n
    · rw [hqn]
      exact hgone
    · have hq' : ¬d.bh.Mem q := fun hm => hq ((hmem' q).mpr ⟨hm, hqn⟩)
      exact (hidx' q hq').trans (h.noidx q hq')
  · rw [hmem', HeapOp.apply]
    by_cases hqn : q = n
    · simp [hqn]
    · rw [Function.update_of_ne hqn, ← h.mem]
      simp [hqn]
  · rw [hkey']
    rw [HeapOp.apply] at hq
    by_cases hqn : q = n
    · rw [hqn, Function.update_self] at hq
      cases hq
    · rw [Function.update_of_ne hqn] at hq
      exact h.key q key' hq

theorem Represents.reorder (h : Represents k hk d m) {n key : Nat} (hok : d.Ok (.reorder n key)) :
    ∃ d', d.step (.reorder n key) = .ok d' ∧
      Represents k hk d' (HeapOp.apply m (.reorder n key)) := by
  obtain ⟨hu, hun, hat⟩ := h.place hok
  let ff : Foos := { d.ff with key := Function.update d.ff.key n key }
  have hsound : Sound fooViews d.bh ff :=
    ⟨h.sound.valid, ⟨h.sound.told.idx, h.sound.told.room⟩, fun _ _ _ _ => rfl⟩
  have ha : Around (pageTree k hk) (Before fooClient ff) d.bh.at d.bh.next (d.ff.idx n) := by
    refine (h.ordered.around (fooClient_lawful.weak d.ff) hun).rekey ?_
    intro v v' hv hvn hvu hv' hvn' hvu'
    have hne : ∀ i, 1 ≤ i → i < d.bh.next → i ≠ d.ff.idx n → d.bh.at i ≠ n :=
      fun i hi hin hiu he =>
        hiu (h.sound.told.inj hi hin hu hun (he.trans hat.symm))
    rw [before_fooClient, before_fooClient, show ff.key = Function.update d.ff.key n key from rfl,
      Function.update_of_ne (hne v hv hvn hvu), Function.update_of_ne (hne v' hv' hvn' hvu')]
  obtain ⟨bh', ff', hrun, hs', hk', ho'⟩ :=
    vbhReorder_spec fooClient_lawful hk hsound h.page hu hun ha
  have hkey' : ff'.key = Function.update d.ff.key n key := hk'.rest
  have hn : d.bh.Mem n := ⟨_, hu, hun, hat⟩
  refine ⟨⟨bh', ff'⟩, ?_, hs', hk'.pageShift.trans h.page, ho', fun q hq => ?_, fun q => ?_,
    fun q key' hq => ?_⟩
  · rw [Driver.step, hrun, ok_bind]
    rfl
  · have hq' : ¬d.bh.Mem q := fun hm => hq ((hk'.mem q).mpr hm)
    exact (hk'.idx q hq').trans (h.noidx q hq')
  · rw [hk'.mem, HeapOp.apply]
    by_cases hqn : q = n
    · simp [hqn, hn]
    · rw [Function.update_of_ne hqn, h.mem]
  · rw [hkey']
    rw [HeapOp.apply] at hq
    by_cases hqn : q = n
    · rw [hqn, Function.update_self] at hq ⊢
      exact Option.some.inj hq
    · rw [Function.update_of_ne hqn] at hq ⊢
      exact h.key q key' hq

theorem Represents.step (h : Represents k hk d m) (op : HeapOp) (hok : d.Ok op) :
    ∃ d', d.step op = .ok d' ∧ Represents k hk d' (HeapOp.apply m op) := by
  cases op with
  | insert n key => exact h.insert hok
  | delete n => exact h.delete hok
  | reorder n key => exact h.reorder hok

/-- The root is an item with the least key; an empty heap has none. -/
theorem Represents.root (h : Represents k hk d m) :
    (vbhRoot d.bh = .ok none ∧ ∀ n, m n = none) ∨
      ∃ p key, vbhRoot d.bh = .ok (some p) ∧ m p = some key ∧
        ∀ n key', m n = some key' → key ≤ key' := by
  have hrow := h.sound.valid.row
  have hpos := h.sound.valid.pos
  have hlen : rootIdx < d.bh.length := lt_of_lt_of_le (by decide) hrow
  by_cases hone : d.bh.next = 1
  · left
    refine ⟨?_, fun n => ?_⟩
    · rw [vbhRoot, if_pos hlen, rootIdx, h.sound.valid.empty hone]
    · have hno : ¬d.bh.Mem n := by
        rintro ⟨u, hu, hun, -⟩
        omega
      rw [h.mem] at hno
      simpa using hno
  · right
    have h1n : 1 < d.bh.next := by omega
    obtain ⟨key, hkey⟩ := Option.isSome_iff_exists.mp ((h.mem _).mp ⟨1, le_rfl, h1n, rfl⟩)
    refine ⟨d.bh.at 1, key, ?_, hkey, fun n key' hn => ?_⟩
    · rw [vbhRoot, if_pos hlen, rootIdx, h.sound.valid.slot 1 le_rfl h1n]
    · obtain ⟨u, hu, hun, rfl⟩ := (h.mem n).mpr (by rw [hn]; rfl)
      have hroot : ¬Before fooClient d.ff (d.bh.at u) (d.bh.at 1) :=
        h.ordered.root (fooClient_lawful.weak d.ff) hu hun
      rw [before_fooClient, h.key _ _ hn, h.key _ _ hkey] at hroot
      exact not_lt.mp hroot

end

end Event
end VTest
