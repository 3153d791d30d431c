import VTest.Hpack.Literal

/-!
# VTest.Hpack.NameIndex

A literal with incremental indexing whose name is given by an index: `push_header` looks the name
up, evicts, and looks it up again.

* `Reachable`: the contexts that insertions and resizes reach; `Reachable.inv` is what holds of
  them.
* `hpkEncHdr_push`: with room in the buffer, encoding such a header is its insertion.
* `pushHeader_by_index`: the insertion goes through exactly when the eviction leaves the entry
  that the index stands for.
-/

namespace VTest
namespace Hpack

open Weighted

/-! ## Reachable contexts -/

/-- The contexts that `HPK_NewCtx`, `HPK_ResizeTbl` and `push_header` of any header reach, as long
as the lengths of an entry and of all entries stay below `2 ^ 32 - 61`. -/
inductive Reachable : HpkCtx → Prop where
  | new (m : UInt32) : Reachable (hpkNewCtx m)
  | resize {ctx ctx' : HpkCtx} (num : UInt32) (hc : Reachable ctx)
      (hr : hpkResizeTbl ctx num = .ok ctx') : Reachable ctx'
  | push {ctx ctx' : HpkCtx} {h : HpkHdr} (hc : Reachable ctx) (hp : pushHeader ctx h = .ok ctx')
      (hlen : ∀ key, pushKey ctx h = .ok key → h.value.len + 32 + key.len < 2 ^ 32 - 61)
      (hw : weight DynHdr.len ctx'.dyntbl < 2 ^ 32 - 61) : Reachable ctx'

/-- The byte counter is right, within the bound, and far enough from wrapping for the lookups. -/
structure TblInv (ctx : HpkCtx) : Prop where
  size : SizeOk ctx
  le : ctx.size ≤ ctx.maxsize
  small : weight DynHdr.len ctx.dyntbl < 2 ^ 32 - 61

/-- The second lookup of the name finds what the first one has found. -/
theorem pushKey_of_popped {ctx c1 : HpkCtx} {h : HpkHdr} {key key' : HpkTxt}
    (hpre : c1.dyntbl <+: ctx.dyntbl) (hk : pushKey ctx h = .ok key)
    (hk' : pushKey c1 h = .ok key') : key' = key := by
  by_cases hn : h.key.ptr = .null
  · obtain ⟨ih, hg, rfl⟩ := pushKey_indexed_inv hn hk
    obtain ⟨ih', hg', rfl⟩ := pushKey_indexed_inv hn hk'
    rw [hpkGetHdr_of_popped hpre hg hg']
  · rw [pushKey_named hn] at hk hk'
    cases hk
    cases hk'
    rfl

/-- An insertion leaves the table alone, or evicts, or evicts and adds an entry of the length that
was asked for. -/
theorem pushHeader_inv {ctx ctx' : HpkCtx} {h : HpkHdr} (hp : pushHeader ctx h = .ok ctx') :
    ctx' = ctx ∨ ∃ key c1, pushKey ctx h = .ok key ∧
      evictFor ctx (UInt32.ofNat (h.value.len + 32 + key.len)) = .ok c1 ∧
      (ctx' = c1 ∨ ∃ e : DynHdr, h.value.len + 32 + key.len = e.len ∧
        UInt32.ofNat e.len ≤ c1.maxsize - c1.size ∧
        ctx' = { c1 with dyntbl := e :: c1.dyntbl, size := c1.size + UInt32.ofNat e.len }) := by
  unfold pushHeader at hp
  obtain ⟨_, hp⟩ := check_bind_eq_ok.mp hp
  split at hp
  · cases hp
    exact .inl rfl
  obtain ⟨key, hk, hp⟩ := bind_eq_ok.mp hp
  obtain ⟨c1, hc1, hp⟩ := bind_eq_ok.mp hp
  refine .inr ⟨key, c1, hk, hc1, ?_⟩
  split at hp
  · rename_i hroom
    obtain ⟨key', hk', hp⟩ := bind_eq_ok.mp hp
    obtain rfl := pushKey_of_popped (popWhile_isPrefix hc1) hk hk'
    obtain ⟨k, hdk, hp⟩ := bind_eq_ok.mp hp
    obtain ⟨v, hdv, hp⟩ := bind_eq_ok.mp hp
    have he : h.value.len + 32 + key'.len = DynHdr.len ⟨k, v⟩ := len_of_deref hdk hdv
    rw [he] at hroom hp
    cases hp
    exact .inr ⟨⟨k, v⟩, he, hroom, rfl⟩
  · cases hp
    exact .inl rfl

theorem Reachable.inv {ctx : HpkCtx} (h : Reachable ctx) : TblInv ctx := by
  induction h with
  | new m => exact ⟨rfl, by simp [hpkNewCtx], by simp [hpkNewCtx]⟩
  | @resize ctx ctx' num _ hr ih =>
    obtain ⟨c1, hp, hd, hm, hs⟩ := resize_fit ih.size num
    cases hr.symm.trans hp
    refine ⟨hs, ?_, ?_⟩
    · rw [UInt32.le_iff_toNat_le, hs, hd, hm]
      exact weight_fit_le _ _ _
    · rw [hd]
      exact Nat.lt_of_le_of_lt (weight_mono _ (fit_isPrefix _ _ _)) ih.small
  | @push ctx ctx' h _ hp hlen hw ih =>
    rcases pushHeader_inv hp with rfl | ⟨key, c1, hk, hev, hc⟩
    · exact ih
    have hlt := hlen key hk
    obtain ⟨c2, hp2, hd2, hm2, hs2, hle2, _⟩ :=
      evict_fit ih.size ih.le (n := h.value.len + 32 + key.len) (by omega) (by omega)
    cases hev.symm.trans hp2
    rcases hc with rfl | ⟨e, he, hroom, rfl⟩
    · exact ⟨hs2, hle2, hw⟩
    · obtain ⟨hs', hle'⟩ := hs2.insert hle2 (by omega) hroom
      exact ⟨hs', hle', hw⟩

/-! ## Room in the buffer -/

theorem numEncLoop_room {r : Bytes} : ∀ {done : Bytes} {num : UInt32},
    (Varint.encode num.toNat).length ≤ r.length →
    ∃ it, numEncLoop done r num = .ok (it.result, it) := by
  induction r with
  | nil =>
    intro done num h
    have := List.length_pos_iff.mpr (Varint.encode_ne_nil num.toNat)
    simp only [List.length_nil] at h
    omega
  | cons b r ih =>
    intro done num h
    have hdiv : (num / 128).toNat = num.toNat / 128 := by
      rw [UInt32.toNat_div]
      rfl
    rw [numEncLoop]
    by_cases hz : num / 128 ≠ 0
    · rw [if_pos hz]
      rw [ne_eq, ← UInt32.toNat_inj, hdiv, UInt32.toNat_zero] at hz
      rw [Varint.encode_of_ge (by omega), List.length_cons, List.length_cons] at h
      exact ih (by rw [hdiv]; omega)
    · rw [if_neg hz]
      exact ⟨_, rfl⟩

/-- An integer takes at most six bytes. -/
theorem numEncode_room {pfx : Nat} (h1 : 1 ≤ pfx) (h8 : pfx ≤ 8) {it : HpkIter} (num : UInt32)
    (hroom : 7 ≤ it.left.length) :
    ∃ it', numEncode it pfx num = .ok (.more, it') ∧ it.left.length ≤ it'.left.length + 6 := by
  obtain ⟨done, left⟩ := it
  obtain ⟨b, r, rfl⟩ := List.exists_cons_of_length_pos (Nat.lt_of_lt_of_le (by omega) hroom)
  have hlt := num.toNat_lt
  have hnb : (numBytes pfx b num.toNat).length ≤ 6 := by
    rw [numBytes]
    split
    · simp
    · have := Varint.length_encode_le (k := 4) (n := num.toNat - (2 ^ pfx - 1)) (by omega)
      rw [List.length_cons]
      omega
  have hok : ∃ it', numEncode ⟨done, b :: r⟩ pfx num = .ok (it'.result, it') := by
    rw [numEncode, decide_eq_true (by omega : pfx ≠ 0), decide_eq_true h8]
    simp only [check_true, ok_bind, List.isEmpty_cons, Bool.not_false]
    split
    · exact ⟨_, rfl⟩
    · simp only [List.length_cons] at hroom
      rw [if_neg (by simp only [List.isEmpty_iff]; rintro rfl; simp at hroom)]
      refine numEncLoop_room (Nat.le_trans (Varint.length_encode_le (k := 4) ?_) (by omega))
      have := (num - (UInt8.ofNat (2 ^ pfx - 1)).toUInt32).toNat_lt
      omega
  obtain ⟨it', hok⟩ := hok
  obtain ⟨_, _, hl⟩ := numEncode_wrote hok (result_ne_err _)
  have hne : it'.left ≠ [] := by
    intro h0
    rw [h0] at hl
    simp only [List.length_nil] at hl hroom
    omega
  rw [show it'.result = .more from result_more it'.done hne] at hok
  exact ⟨it', hok, by simp only; omega⟩

theorem strEncode_room {it : HpkIter} (v : Bytes) (huff : Bool)
    (hroom : 7 + huffSimulate v huff ≤ it.left.length) :
    ∃ it', strEncode it (.of v huff) = .ok (.more, it') ∧
      it.left.length ≤ it'.left.length + 6 + huffSimulate v huff := by
  obtain ⟨done, left⟩ := it
  obtain ⟨x, l, rfl⟩ := List.exists_cons_of_length_pos (Nat.lt_of_lt_of_le (by omega) hroom)
  obtain ⟨it1, h1, hl⟩ := @numEncode_room 7 (by omega) (by omega) ⟨done, huffBit huff :: l⟩
    (UInt32.ofNat (huffSimulate v huff)) (Nat.le_trans (Nat.le_add_right _ _) hroom)
  simp only [List.length_cons] at hl hroom ⊢
  have hroom1 : huffSimulate v huff < it1.left.length := by omega
  have henc : strEncode ⟨done, x :: l⟩ (.of v huff) =
      if it1.left.length < huffSimulate v huff then .ok (.err, it1)
      else if huff then huffEncode it1 v
      else .ok ((HpkIter.mk (it1.done ++ v) (it1.left.drop v.length)).result,
        ⟨it1.done ++ v, it1.left.drop v.length⟩) := by
    rw [strEncode, read_of, ok_bind]
    have h1' : numEncode ⟨done, (if (HpkTxt.of v huff).huff then 0x80 else 0) :: l⟩ 7
      (UInt32.ofNat (huffSimulate v (HpkTxt.of v huff).huff)) = .ok (.more, it1) := h1
    simp only [List.isEmpty_cons, Bool.not_false, check_true, ok_bind, List.tail_cons, h1',
      reduceCtorEq, if_false]
    cases huff <;> rfl
  rw [henc, if_neg (by omega)]
  cases huff with
  | false =>
    have hlen : huffSimulate v false = v.length := rfl
    rw [hlen] at hroom1 ⊢
    have hne : it1.left.drop v.length ≠ [] := by
      rw [ne_eq, List.drop_eq_nil_iff]
      omega
    refine ⟨⟨it1.done ++ v, it1.left.drop v.length⟩, ?_, ?_⟩
    · rw [if_neg (by simp), result_more _ hne]
    · rw [List.length_drop]
      omega
  | true =>
    rw [if_pos rfl]
    by_cases hv : v = []
    · subst hv
      have hne1 : it1.left ≠ [] := List.ne_nil_of_length_pos (by omega)
      refine ⟨it1, ?_, by omega⟩
      rw [huffEncode, List.isEmpty_eq_false_iff.mpr hne1]
      rfl
    · obtain ⟨w, hw, henc, _⟩ := huffEncode_wrote hv (Nat.le_of_lt hroom1)
      refine ⟨_, henc, ?_⟩
      simp only [List.length_drop]
      omega

/-! ## Insertion by index -/

/-- A literal with incremental indexing, with the name that the index `i` stands for. -/
def incHdr (i : UInt32) (v : Bytes) (huff : Bool) : HpkHdr where
  t := .inc
  i := i
  value := .of v huff

/-- With room for the index and the value, encoding is the insertion. -/
theorem hpkEncHdr_push (ctx : HpkCtx) {it : HpkIter} (i : UInt32) (v : Bytes) (huff : Bool)
    (hroom : 15 + huffSimulate v huff ≤ it.left.length) :
    ∃ it', hpkEncHdr ctx it (incHdr i v huff) =
      pushHeader ctx (incHdr i v huff) >>= fun ctx' => .ok (.more, it', ctx') := by
  obtain ⟨done, left⟩ := it
  obtain ⟨b, r, rfl⟩ := List.exists_cons_of_length_pos (Nat.lt_of_lt_of_le (by omega) hroom)
  simp only [List.length_cons] at hroom
  have hname : ∃ it1, encName ⟨done, 0x40 :: r⟩ (incHdr i v huff) 6 = .ok (.more, it1) ∧
      7 + huffSimulate v huff ≤ it1.left.length := by
    rw [encName]
    split
    · obtain ⟨it1, h1, hl⟩ := @numEncode_room 6 (by omega) (by omega) ⟨done, 0x40 :: r⟩ i
        (by simp only [List.length_cons]; omega)
      simp only [List.length_cons] at hl
      exact ⟨it1, h1, by omega⟩
    · -- index 0 stands for the header's own name, which is then empty
      obtain ⟨it1, h1, hl⟩ := @strEncode_room ⟨done ++ [0x40], r⟩ [] false
        (by rw [huffSimulate_nil]; simp only; omega)
      rw [huffSimulate_nil] at hl
      exact ⟨it1, h1, by simp only at hl; omega⟩
  obtain ⟨it1, hname, hl⟩ := hname
  obtain ⟨it2, hval, _⟩ := strEncode_room v huff hl
  refine ⟨it2, ?_⟩
  rw [hpkEncHdr]
  simp only [incHdr] at hname ⊢
  rw [encLit]
  simp only [setCur, ok_bind, hname, hval, ne_eq, not_true_eq_false, reduceCtorEq, if_false,
    pushIf, if_true]
  rfl

/-- The insertion of a value `v` under the name of the index `i` of a context. -/
theorem pushHeader_by_index {ctx : HpkCtx} (hinv : TblInv ctx) {i : UInt32} (h0 : i ≠ 0)
    {ih : HpkHdr} (hg : hpkGetHdr ctx i = some ih) {e : DynHdr} (hk : ih.key = .of e.key)
    (hlen : e.len < 2 ^ 32 - 61) (huff : Bool) (hm : ctx.maxsize ≠ 0) :
    ∃ c1, c1.dyntbl = fit DynHdr.len (ctx.maxsize.toNat - e.len) ctx.dyntbl ∧
      SizeOk c1 ∧ c1.size ≤ c1.maxsize ∧
      (e.len ≤ ctx.maxsize.toNat → UInt32.ofNat e.len ≤ c1.maxsize - c1.size) ∧
      pushHeader ctx (incHdr i e.value huff) =
        if e.len ≤ ctx.maxsize.toNat then
          if (hpkGetHdr c1 i).isSome then
            .ok { c1 with dyntbl := e :: c1.dyntbl, size := c1.size + UInt32.ofNat e.len }
          else .error .assert
        else .ok c1 := by
  have hlen' : (incHdr i e.value huff).value.len + 32 + ih.key.len = e.len := by
    rw [hk]
    simp only [incHdr, HpkTxt.of, DynHdr.len]
    omega
  obtain ⟨c1, hp, hd, hm1, hs1, hle1, hroom⟩ :=
    evict_fit hinv.size hinv.le e.len_pos (by omega)
  have hfind : pushKey ctx (incHdr i e.value huff) = .ok ih.key := pushKey_indexed rfl h0 hg
  refine ⟨c1, hd, hs1, hle1, hroom.mpr, ?_⟩
  rw [pushHeader, decide_eq_true hinv.le]
  simp only [check_true, ok_bind, hm, if_false, hfind, hlen', hp, hroom]
  by_cases hfits : e.len ≤ ctx.maxsize.toNat
  · rw [if_pos hfits, if_pos hfits]
    cases hg1 : hpkGetHdr c1 i with
    | none =>
      have hlost : pushKey c1 (incHdr i e.value huff) = .error .assert := by
        simp [pushKey, incHdr, h0, hg1]
      rw [hlost]
      rfl
    | some ih1 =>
      have hfind1 : pushKey c1 (incHdr i e.value huff) = .ok ih1.key := pushKey_indexed rfl h0 hg1
      have hpre : c1.dyntbl <+: ctx.dyntbl := hd ▸ fit_isPrefix _ _ _
      rw [hfind1, hpkGetHdr_of_popped hpre hg hg1, hk]
      simp only [ok_bind, deref_of, incHdr, pure_res, Option.isSome_some, if_true]
  · rw [if_neg hfits, if_neg hfits]
    rfl

/-- What the index stands for is still there when the entries up to it fit behind the new one. -/
theorem survives_iff {ctx c1 : HpkCtx} (hinv : TblInv ctx) (hs1 : SizeOk c1) {i : UInt32}
    (hg : (hpkGetHdr ctx i).isSome = true) {cap : Nat}
    (hd : c1.dyntbl = fit DynHdr.len cap ctx.dyntbl) :
    (hpkGetHdr c1 i).isSome = true ↔
      i.toNat ≤ 61 ∨ weight DynHdr.len (ctx.dyntbl.take (i.toNat - 61)) ≤ cap := by
  have hpre : c1.dyntbl <+: ctx.dyntbl := hd ▸ fit_isPrefix _ _ _
  have hsmall := Nat.lt_of_le_of_lt (weight_mono DynHdr.len hpre) hinv.small
  have hget (l : List DynHdr) (n : Nat) : l[n]?.isSome = true ↔ n < l.length := by
    rw [Option.isSome_iff_ne_none, ne_eq, List.getElem?_eq_none_iff, Nat.not_le]
  by_cases hi : i.toNat ≤ 61
  · refine iff_of_true ?_ (.inl hi)
    have hlt : i.toNat < sttbl.length := by rw [length_sttbl]; omega
    rw [(lookup_static hsmall hs1 hi).1, List.getElem?_eq_getElem hlt]
    rfl
  · rw [(lookup_dyn hinv.size hinv.small (by omega)).1, Option.isSome_map, hget] at hg
    rw [(lookup_dyn hs1 hsmall (by omega)).1, Option.isSome_map, hget, or_iff_right hi,
      hd]
    constructor
    · intro hlt
      have htake : ctx.dyntbl.take (i.toNat - 61) <+: fit DynHdr.len cap ctx.dyntbl :=
        List.prefix_of_prefix_length_le (List.take_prefix _ _) (fit_isPrefix _ _ _)
          (by rw [List.length_take]; omega)
      exact Nat.le_trans (weight_mono _ htake) (weight_fit_le _ _ _)
    · intro hw
      have hlen := (prefix_fit DynHdr.len (List.take_prefix _ ctx.dyntbl) hw).length_le
      rw [List.length_take] at hlen
      omega

/-- Encoding a literal with the name of index `i` and the value `v` trips no assertion, and puts
that name and the value into entry 62 if they fit. -/
def KeepsName (ctx : HpkCtx) (it : HpkIter) (i : UInt32) (ih : HpkHdr) (v : Bytes) (huff : Bool) :
    Prop :=
  ∃ ret it' ctx', hpkEncHdr ctx it (incHdr i v huff) = .ok (ret, it', ctx') ∧
    (ih.key.len + v.length + 32 ≤ ctx.maxsize.toNat →
      ∃ h62, hpkGetHdr ctx' 62 = some h62 ∧ h62.key.deref = ih.key.deref ∧
        h62.value.deref = .ok v)

theorem indexed_name_kept_iff {ctx : HpkCtx} (hr : Reachable ctx) {i : UInt32} {ih : HpkHdr}
    (hg : hpkGetHdr ctx i = some ih) (v : Bytes) (huff : Bool)
    (hsum : weight DynHdr.len ctx.dyntbl + (ih.key.len + v.length + 32) < 2 ^ 32 - 61)
    {it : HpkIter} (hroom : 15 + huffSimulate v huff ≤ it.left.length) :
    KeepsName ctx it i ih v huff ↔ ctx.maxsize = 0 ∨ i ≠ 0 ∧
      (i.toNat ≤ 61 ∨ ctx.maxsize.toNat < ih.key.len + v.length + 32 ∨
        weight DynHdr.len (ctx.dyntbl.take (i.toNat - 61)) + (ih.key.len + v.length + 32) ≤
          ctx.maxsize.toNat) := by
  have hinv := hr.inv
  obtain ⟨it', henc⟩ := hpkEncHdr_push ctx i v huff hroom
  rw [KeepsName, henc]
  by_cases hm : ctx.maxsize = 0
  · have hpush : pushHeader ctx (incHdr i v huff) = .ok ctx := by
      rw [pushHeader, decide_eq_true hinv.le, check_true, ok_bind, if_pos hm]
      rfl
    rw [hpush]
    refine iff_of_true ⟨_, _, _, rfl, fun h => ?_⟩ (.inl hm)
    rw [hm, UInt32.toNat_zero] at h
    omega
  by_cases h0 : i = 0
  · -- the header has neither a name nor an index
    subst h0
    have hpush : pushHeader ctx (incHdr 0 v huff) = .error .assert := by
      rw [pushHeader, decide_eq_true hinv.le, check_true, ok_bind, if_neg hm]
      rfl
    rw [hpush]
    refine iff_of_false ?_ (by simp [hm])
    rintro ⟨_, _, _, h, _⟩
    cases h
  obtain ⟨e0, hk, _⟩ := hpkGetHdr_live hg h0
  have hlen : DynHdr.len ⟨e0.key, v⟩ = ih.key.len + v.length + 32 := by
    rw [hk]
    rfl
  obtain ⟨c1, hd, hs1, hle1, hins, hpush⟩ :=
    @pushHeader_by_index ctx hinv i h0 ih hg ⟨e0.key, v⟩ hk (by omega) huff hm
  have hsurv := survives_iff hinv hs1 (by rw [hg]; rfl) hd
  rw [hpush, ← hlen, or_iff_right hm, and_iff_right h0]
  by_cases hfits : DynHdr.len ⟨e0.key, v⟩ ≤ ctx.maxsize.toNat
  · rw [if_pos hfits]
    have hcond : (i.toNat ≤ 61 ∨ ctx.maxsize.toNat < DynHdr.len ⟨e0.key, v⟩ ∨
        weight DynHdr.len (ctx.dyntbl.take (i.toNat - 61)) + DynHdr.len ⟨e0.key, v⟩ ≤
          ctx.maxsize.toNat) ↔ (hpkGetHdr c1 i).isSome = true := by
      rw [hsurv]
      omega
    rw [hcond]
    by_cases hsome : (hpkGetHdr c1 i).isSome = true
    · rw [if_pos hsome]
      obtain ⟨hs2, _⟩ := hs1.insert hle1 (by omega) (hins hfits)
      have hpre : c1.dyntbl <+: ctx.dyntbl := hd ▸ fit_isPrefix _ _ _
      have hw := weight_mono DynHdr.len hpre
      refine iff_of_true ⟨_, _, _, rfl, fun _ => ?_⟩ hsome
      refine ⟨_, (lookup_dyn hs2 (by simp only [weight_cons]; omega) (by decide)).1, ?_, ?_⟩
      · rw [hk]
        rfl
      · exact deref_of v false
    · rw [if_neg hsome]
      refine iff_of_false ?_ hsome
      rintro ⟨_, _, _, h, _⟩
      cases h
  · rw [if_neg hfits]
    exact iff_of_true ⟨_, _, _, rfl, fun h => absurd h hfits⟩ (.inr (.inl (by omega)))

/-- The name `:authority` of the static table, in a new context. -/
theorem indexed_name_kept_static :
    ∃ ih, KeepsName (hpkNewCtx 4096) ⟨[], List.replicate 16 0⟩ 1 ih [97] false := by
  refine ⟨_, (indexed_name_kept_iff (.new 4096) (i := 1) rfl [97] false (by decide)
    (by decide)).mpr ?_⟩
  exact .inr ⟨by decide, .inl (by decide)⟩

/-- A table of 64 bytes with one entry of 34: inserting under its name evicts it, and the second
lookup fails. -/
theorem evicted_name_asserts :
    Reachable ⟨[⟨[97], [98]⟩], 64, 34⟩ ∧
      (hpkGetHdr ⟨[⟨[97], [98]⟩], 64, 34⟩ 62).isSome = true ∧
      hpkEncHdr ⟨[⟨[97], [98]⟩], 64, 34⟩ ⟨[], List.replicate 15 0⟩ (incHdr 62 [] false) =
        .error .assert ∧
      ∀ ih, ¬ KeepsName ⟨[⟨[97], [98]⟩], 64, 34⟩ ⟨[], List.replicate 15 0⟩ 62 ih [] false := by
  refine ⟨?_, rfl, rfl, ?_⟩
  rotate_left
  · rintro ih ⟨_, _, _, h, _⟩
    cases h
  refine .push (h := ⟨.of [97], .of [98], .inc, 0⟩) (.new 64) rfl (fun key hk => ?_) (by decide)
  cases hk
  decide

end Hpack
end VTest
