import VTest.Hpack.Table

/-!
# VTest.Hpack.TableSpec

The dynamic table against the list model of RFC 7541 section 4.

`RfcTable` is the list model: entries newest first, a bound, and the fact that the entries are
within the bound. Adding an entry and changing the bound are `Weighted.insertFit` and
`Weighted.fit`.
`Refines ctx t` says that a context of the source is the table `t` and that its byte counter is
the sum of the entries.

* `popWhile_shed`: the eviction loop is `Weighted.shed`, whatever its test, as long as the test
  compares the sum with a bound.
* `pushHeader_refines`, `hpkResizeTbl_refines`: the operations of the source are those of the
  list model.
* `lookup_dyn`: the walk with the wrapping counter finds the entry at `idx - 62`.
* `runOps_refines`: any history of operations, from a new context.
-/

namespace VTest
namespace Hpack

open Weighted

/-- The list model of the dynamic table. -/
structure RfcTable where
  entries : List DynHdr
  max : Nat
  fits : weight DynHdr.len entries ≤ max

namespace RfcTable

def empty (max : Nat) : RfcTable := ⟨[], max, Nat.zero_le _⟩

def add (t : RfcTable) (e : DynHdr) : RfcTable :=
  ⟨insertFit DynHdr.len t.max e t.entries, t.max, weight_insertFit_le _ _ _ _⟩

def setMax (t : RfcTable) (max : Nat) : RfcTable :=
  ⟨fit DynHdr.len max t.entries, max, weight_fit_le _ _ _⟩

end RfcTable

/-- `ctx->size` is the sum of the entries. -/
def SizeOk (ctx : HpkCtx) : Prop := ctx.size.toNat = weight DynHdr.len ctx.dyntbl

structure Refines (ctx : HpkCtx) (t : RfcTable) : Prop where
  dyntbl : ctx.dyntbl = t.entries
  maxsize : ctx.maxsize.toNat = t.max
  size : SizeOk ctx

theorem Refines.size_le {ctx : HpkCtx} {t : RfcTable} (h : Refines ctx t) :
    ctx.size ≤ ctx.maxsize := by
  rw [UInt32.le_iff_toNat_le, h.size, h.maxsize, h.dyntbl]
  exact t.fits

theorem DynHdr.len_pos (h : DynHdr) : 32 ≤ h.len := Nat.le_add_left _ _

theorem weight_pos {l : List DynHdr} (h : l ≠ []) : 32 ≤ weight DynHdr.len l := by
  cases l with
  | nil => exact absurd rfl h
  | cons x l => have := x.len_pos; simp; omega

/-- Every entry counts for 32 bytes at least. -/
theorem length_le_weight (l : List DynHdr) : 32 * l.length ≤ weight DynHdr.len l := by
  induction l with
  | nil => simp
  | cons x l ih => have := x.len_pos; simp; omega

theorem toNat_ofNat {n : Nat} (h : n < 2 ^ 32) : (UInt32.ofNat n).toNat = n := by
  rw [UInt32.toNat_ofNat']
  exact Nat.mod_eq_of_lt h

/-! ## Eviction -/

theorem popHeader_ok {ctx : HpkCtx} (hs : SizeOk ctx) (hne : ctx.dyntbl ≠ []) :
    ∃ ctx', popHeader ctx = .ok ctx' ∧ ctx'.dyntbl = ctx.dyntbl.dropLast ∧
      ctx'.maxsize = ctx.maxsize ∧ SizeOk ctx' ∧ ctx'.size ≤ ctx.size := by
  have hw := weight_dropLast DynHdr.len hne
  rw [← hs] at hw
  have hlt := ctx.size.toNat_lt
  generalize hg : ctx.dyntbl.getLast hne = h at hw
  have hh : (UInt32.ofNat h.len).toNat = h.len := toNat_ofNat (by omega)
  have hsub : (ctx.size - UInt32.ofNat h.len).toNat = weight DynHdr.len ctx.dyntbl.dropLast := by
    rw [UInt32.toNat_sub_of_le, hh]
    · omega
    · rw [UInt32.le_iff_toNat_le, hh]; omega
  refine ⟨{ ctx with dyntbl := ctx.dyntbl.dropLast, size := ctx.size - UInt32.ofNat h.len },
    ?_, rfl, rfl, hsub, ?_⟩
  · simp only [popHeader, List.getLast?_eq_some_getLast hne, hg]
    rfl
  · rw [UInt32.le_iff_toNat_le, hsub, hs]
    exact weight_mono _ (List.dropLast_prefix _)

/-- The eviction loop, for a test that compares the sum of the entries with `cap` on every
context the loop can reach. -/
theorem popWhile_shed {c : HpkCtx → Bool} {cap : Nat} {m s : UInt32}
    (hc : ∀ x : HpkCtx, x.maxsize = m → SizeOk x → x.size ≤ s → x.dyntbl ≠ [] →
      (c x = true ↔ cap < weight DynHdr.len x.dyntbl)) :
    ∀ (n : Nat) (ctx : HpkCtx), ctx.maxsize = m → SizeOk ctx → ctx.size ≤ s →
      ∃ ctx', popWhile c n ctx = .ok ctx' ∧ ctx'.dyntbl = shed DynHdr.len cap n ctx.dyntbl ∧
        ctx'.maxsize = m ∧ SizeOk ctx' := by
  intro n
  induction n with
  | zero => intro ctx hm hs _; exact ⟨ctx, rfl, rfl, hm, hs⟩
  | succ n ih =>
    intro ctx hm hs hle
    by_cases hne : ctx.dyntbl = []
    · refine ⟨ctx, ?_, ?_, hm, hs⟩
      · simp [popWhile, hne]
      · simp [shed, hne]
    · by_cases hcap : cap < weight DynHdr.len ctx.dyntbl
      · obtain ⟨ctx1, h1, hd, hm1, hs1, hle1⟩ := popHeader_ok hs hne
        obtain ⟨ctx', h2, hd', hm', hs'⟩ := ih ctx1 (hm1.trans hm) hs1
          (UInt32.le_trans hle1 hle)
        refine ⟨ctx', ?_, ?_, hm', hs'⟩
        · have hct := (hc ctx hm hs hle hne).mpr hcap
          simp [popWhile, hne, hct, h1, h2]
        · rw [hd', hd]
          simp [shed, hne, hcap]
      · refine ⟨ctx, ?_, ?_, hm, hs⟩
        · have hct : ¬ c ctx = true := fun h => hcap ((hc ctx hm hs hle hne).mp h)
          simp [popWhile, hct]
        · simp [shed, hcap]

theorem popWhile_fit (c : HpkCtx → Bool) (cap : Nat) (ctx : HpkCtx) (hs : SizeOk ctx)
    (hc : ∀ x : HpkCtx, x.maxsize = ctx.maxsize → SizeOk x → x.size ≤ ctx.size →
      x.dyntbl ≠ [] → (c x = true ↔ cap < weight DynHdr.len x.dyntbl)) :
    ∃ ctx', popWhile c ctx.dyntbl.length ctx = .ok ctx' ∧
      ctx'.dyntbl = fit DynHdr.len cap ctx.dyntbl ∧ ctx'.maxsize = ctx.maxsize ∧
      SizeOk ctx' := by
  obtain ⟨ctx', h, hd, hm, hs'⟩ := popWhile_shed hc ctx.dyntbl.length ctx rfl hs
    (UInt32.le_refl _)
  exact ⟨ctx', h, by rw [hd, shed_eq_fit _ (Nat.le_refl _)], hm, hs'⟩

/-- The test of the insertion loop, `maxsize - size < len`, does not wrap. -/
theorem room_iff {x : HpkCtx} {len : UInt32} (hs : SizeOk x) (hle : x.size ≤ x.maxsize) :
    x.maxsize - x.size < len ↔
      x.maxsize.toNat < weight DynHdr.len x.dyntbl + len.toNat := by
  have := UInt32.le_iff_toNat_le.mp hle
  rw [UInt32.lt_iff_toNat_lt, UInt32.toNat_sub_of_le _ _ hle, ← hs]
  omega

/-- The eviction for a new entry of `n` bytes: the entries that fit behind it stay, and there is
room for it exactly when it fits alone. -/
theorem evict_fit {ctx : HpkCtx} (hs : SizeOk ctx) (hle : ctx.size ≤ ctx.maxsize) {n : Nat}
    (h32 : 32 ≤ n) (hn : n < 2 ^ 32) :
    ∃ c1, popWhile (fun c => c.maxsize - c.size < UInt32.ofNat n) ctx.dyntbl.length ctx = .ok c1 ∧
      c1.dyntbl = fit DynHdr.len (ctx.maxsize.toNat - n) ctx.dyntbl ∧
      c1.maxsize = ctx.maxsize ∧ SizeOk c1 ∧ c1.size ≤ c1.maxsize ∧
      (UInt32.ofNat n ≤ c1.maxsize - c1.size ↔ n ≤ ctx.maxsize.toNat) := by
  obtain ⟨c1, hp, hd1, hm1, hs1⟩ := popWhile_fit
    (fun c => c.maxsize - c.size < UInt32.ofNat n) (ctx.maxsize.toNat - n) ctx hs (by
      intro x hxm hxs hxle hxne
      have := weight_pos hxne
      rw [decide_eq_true_iff, room_iff hxs (by rw [hxm]; exact UInt32.le_trans hxle hle),
        toNat_ofNat hn, hxm]
      omega)
  have hfit := weight_fit_le DynHdr.len (ctx.maxsize.toNat - n) ctx.dyntbl
  rw [← hd1] at hfit
  have hle1 : c1.size ≤ c1.maxsize := by
    rw [UInt32.le_iff_toNat_le, hs1, hm1]; omega
  refine ⟨c1, hp, hd1, hm1, hs1, hle1, ?_⟩
  rw [← UInt32.not_lt, room_iff hs1 hle1, toNat_ofNat hn, hm1]
  omega

/-- An entry that was made room for keeps the counter right. -/
theorem SizeOk.insert {ctx : HpkCtx} (hs : SizeOk ctx) (hle : ctx.size ≤ ctx.maxsize) {e : DynHdr}
    (he : e.len < 2 ^ 32) (hroom : UInt32.ofNat e.len ≤ ctx.maxsize - ctx.size) :
    SizeOk { ctx with dyntbl := e :: ctx.dyntbl, size := ctx.size + UInt32.ofNat e.len } ∧
      ctx.size + UInt32.ofNat e.len ≤ ctx.maxsize := by
  have hlt := ctx.maxsize.toNat_lt
  rw [← UInt32.not_lt, room_iff hs hle, toNat_ofNat he] at hroom
  have hadd : (ctx.size + UInt32.ofNat e.len).toNat = ctx.size.toNat + e.len := by
    rw [UInt32.toNat_add, toNat_ofNat he, hs, Nat.mod_eq_of_lt (by omega)]
  refine ⟨?_, ?_⟩
  · simp only [SizeOk, weight_cons]
    rw [hadd, hs]
    omega
  · rw [UInt32.le_iff_toNat_le, hadd, hs]
    omega

/-! ## The operations -/

/-- What a header with its own name adds to the table. -/
def HpkHdr.entry (h : HpkHdr) : Res DynHdr := do
  let k ← h.key.deref
  let v ← h.value.deref
  return ⟨k, v⟩

/-- A header with its own name, whose length does not wrap. -/
def HpkHdr.Named (h : HpkHdr) : Prop := ∃ e, h.entry = .ok e ∧ e.len < 2 ^ 32 - 61

theorem deref_eq_ok {t : HpkTxt} {b : Bytes} (h : t.deref = .ok b) :
    t.ptr ≠ .null ∧ t.len = b.length := by
  unfold HpkTxt.deref at h
  split at h
  · rename_i b' hp
    split at h
    · cases h
      exact ⟨by rw [hp]; simp, by rw [List.length_take]; omega⟩
    · cases h
  · cases h

theorem entry_eq_ok {h : HpkHdr} {e : DynHdr} (he : h.entry = .ok e) :
    h.key.deref = .ok e.key ∧ h.value.deref = .ok e.value := by
  obtain ⟨k, hk, h1⟩ := bind_eq_ok.mp he
  obtain ⟨v, hv, h2⟩ := bind_eq_ok.mp h1
  cases h2
  exact ⟨hk, hv⟩

theorem pushKey_named {h : HpkHdr} (hn : h.key.ptr ≠ .null) (ctx : HpkCtx) :
    pushKey ctx h = .ok h.key := by
  unfold pushKey
  split
  · rename_i h0; exact absurd h0 hn
  · rfl

theorem pushHeader_refines {ctx : HpkCtx} {t : RfcTable} {h : HpkHdr} {e : DynHdr}
    (hr : Refines ctx t) (he : h.entry = .ok e) (hlen : e.len < 2 ^ 32) :
    ∃ ctx', pushHeader ctx h = .ok ctx' ∧ Refines ctx' (t.add e) := by
  obtain ⟨hdk, hdv⟩ := entry_eq_ok he
  have hle := hr.size_le
  have hkey := pushKey_named (deref_eq_ok hdk).1
  have hel : h.value.len + 32 + h.key.len = e.len := by
    rw [(deref_eq_ok hdk).2, (deref_eq_ok hdv).2, DynHdr.len]; omega
  by_cases hm0 : ctx.maxsize = 0
  · -- a table of size 0 stays empty
    refine ⟨ctx, ?_, ?_⟩
    · rw [hm0] at hle
      simp [pushHeader, hm0, hle]
    · have hmax : t.max = 0 := by rw [← hr.maxsize, hm0]; rfl
      have h32 := e.len_pos
      have hnil : t.entries = [] := by
        by_contra hne
        have := weight_pos hne
        have := t.fits
        omega
      refine ⟨?_, hr.maxsize, hr.size⟩
      rw [hr.dyntbl, hnil]
      simp [RfcTable.add, insertFit, hmax, show ¬ e.len ≤ 0 by omega]
  · obtain ⟨c1, hp, hd1, hm1, hs1, hle1, hroom⟩ := evict_fit hr.size hle e.len_pos hlen
    by_cases hfits : e.len ≤ ctx.maxsize.toNat
    · refine ⟨{ c1 with dyntbl := e :: c1.dyntbl, size := c1.size + UInt32.ofNat e.len },
        ?_, ?_, ?_, ?_⟩
      · simp only [pushHeader, hle, decide_true, check_true, ok_bind, hm0, if_false,
          hkey, hel, hp, hroom, hfits, if_true, hdk, hdv, pure_res]
      · simp only [RfcTable.add, insertFit, ← hr.maxsize, hfits, if_true, hd1, hr.dyntbl]
      · exact (congrArg UInt32.toNat hm1).trans hr.maxsize
      · exact (hs1.insert hle1 hlen (hroom.mpr hfits)).1
    · refine ⟨c1, ?_, ?_, (congrArg UInt32.toNat hm1).trans hr.maxsize, hs1⟩
      · simp only [pushHeader, hle, decide_true, check_true, ok_bind, hm0, if_false,
          hkey, hel, hp, hroom, hfits, pure_res]
      · have hfit := weight_fit_le DynHdr.len (ctx.maxsize.toNat - e.len) ctx.dyntbl
        rw [← hd1] at hfit
        simp only [RfcTable.add, insertFit, ← hr.maxsize, hfits, if_false]
        by_contra hne
        have := weight_pos hne
        omega

/-- The eviction for a new bound: the entries that fit stay. -/
theorem resize_fit {ctx : HpkCtx} (hs : SizeOk ctx) (num : UInt32) :
    ∃ c1, hpkResizeTbl ctx num = .ok c1 ∧ c1.dyntbl = fit DynHdr.len num.toNat ctx.dyntbl ∧
      c1.maxsize = num ∧ SizeOk c1 :=
  popWhile_fit (fun c => c.maxsize < c.size) num.toNat { ctx with maxsize := num } hs (by
    intro x hxm hxs _ _
    rw [decide_eq_true_iff, UInt32.lt_iff_toNat_lt, hxs, hxm])

theorem hpkResizeTbl_refines {ctx : HpkCtx} {t : RfcTable} (hr : Refines ctx t) (num : UInt32) :
    ∃ ctx', hpkResizeTbl ctx num = .ok ctx' ∧ Refines ctx' (t.setMax num.toNat) := by
  obtain ⟨c1, hp, hd1, hm1, hs1⟩ := resize_fit hr.size num
  refine ⟨c1, hp, ?_, congrArg UInt32.toNat hm1, hs1⟩
  rw [hd1, hr.dyntbl]
  rfl

/-! ## Lookup -/

theorem toNat_pred {idx : UInt32} (h : idx.toNat ≠ 0) : (idx - 1).toNat = idx.toNat - 1 := by
  rw [UInt32.toNat_sub_of_le]
  · rfl
  · rw [UInt32.le_iff_toNat_le]; change 1 ≤ _; omega

theorem walk_of_some {l : List DynHdr} {idx : UInt32} {dh : DynHdr}
    (h : l[idx.toNat]? = some dh) : walk l idx = (some dh, 0 - 1) := by
  induction l generalizing idx with
  | nil => simp at h
  | cons x l ih =>
    by_cases h0 : idx = 0
    · subst h0
      simp at h
      simp [walk, h]
    · have hn : idx.toNat ≠ 0 := fun e => h0 (UInt32.toNat_inj.mp e)
      have h1 := toNat_pred hn
      obtain ⟨k, hk⟩ := Nat.exists_eq_succ_of_ne_zero hn
      simp only [walk, h0, if_false]
      apply ih
      rw [h1, hk]
      simpa [hk] using h

theorem walk_of_none {l : List DynHdr} {idx : UInt32} (h : l[idx.toNat]? = none) :
    (walk l idx).1 = none := by
  induction l generalizing idx with
  | nil => rfl
  | cons x l ih =>
    have hlen : l.length + 1 ≤ idx.toNat := by
      rw [List.getElem?_eq_none_iff, List.length_cons] at h
      exact h
    have hn : idx.toNat ≠ 0 := by omega
    have h0 : idx ≠ 0 := fun e => hn (congrArg UInt32.toNat e)
    have h1 := toNat_pred hn
    simp only [walk, h0, if_false]
    apply ih
    rw [h1]
    simp only [List.getElem?_eq_none_iff]
    omega

/-- The walk finds the entry at `idx - 62`: its counter is never 0 after the entry. -/
theorem findDyn_eq (ctx : HpkCtx) (idx : UInt32) :
    findDyn ctx idx = ctx.dyntbl[(idx - 62).toNat]? := by
  unfold findDyn
  cases h : ctx.dyntbl[(idx - 62).toNat]? with
  | some dh => rw [walk_of_some h]; rfl
  | none =>
    have := walk_of_none h
    split
    · rename_i hw; rw [hw] at this; cases this
    · rfl

/-- The lookups, for an index behind the static table. The first test of the source cuts off no
entry, since an entry counts for more than one byte. -/
theorem lookup_dyn {ctx : HpkCtx} {idx : UInt32} (hs : SizeOk ctx)
    (hw : weight DynHdr.len ctx.dyntbl < 2 ^ 32 - 61) (hi : 62 ≤ idx.toNat) :
    hpkGetHdr ctx idx = ctx.dyntbl[idx.toNat - 62]?.map (·.header idx) ∧
      ∀ key, tblGetField ctx idx key = ctx.dyntbl[idx.toNat - 62]?.map fun dh =>
        .of (if key then dh.key else dh.value) := by
  have hsub : (idx - 62).toNat = idx.toNat - 62 := by
    rw [UInt32.toNat_sub_of_le]
    · rfl
    · rw [UInt32.le_iff_toNat_le]; exact hi
  have hadd : (61 + ctx.size).toNat = 61 + weight DynHdr.len ctx.dyntbl := by
    rw [UInt32.toNat_add, hs]
    exact Nat.mod_eq_of_lt (by change 61 + _ < _; omega)
  have hst : ¬ idx ≤ 61 := by
    rw [UInt32.le_iff_toNat_le]; change ¬ idx.toNat ≤ 61; omega
  unfold hpkGetHdr tblGetField
  by_cases hbig : 61 + ctx.size < idx
  · have hnone : ctx.dyntbl[idx.toNat - 62]? = none := by
      rw [UInt32.lt_iff_toNat_lt, hadd] at hbig
      have := length_le_weight ctx.dyntbl
      simp only [List.getElem?_eq_none_iff]
      omega
    simp [hbig, hnone]
  · simp [hbig, hst, findDyn_eq, hsub]

theorem length_sttbl : sttbl.length = 62 := by decide

theorem lookup_static {ctx : HpkCtx} {idx : UInt32}
    (hw : weight DynHdr.len ctx.dyntbl < 2 ^ 32 - 61) (hs : SizeOk ctx) (hi : idx.toNat ≤ 61) :
    hpkGetHdr ctx idx = sttbl[idx.toNat]? ∧
      ∀ key, tblGetField ctx idx key =
        sttbl[idx.toNat]?.map fun h => if key then h.key else h.value := by
  have hadd : (61 + ctx.size).toNat = 61 + weight DynHdr.len ctx.dyntbl := by
    rw [UInt32.toNat_add, hs]
    exact Nat.mod_eq_of_lt (by change 61 + _ < _; omega)
  have hbig : ¬ 61 + ctx.size < idx := by rw [UInt32.lt_iff_toNat_lt, hadd]; omega
  have hst : idx ≤ 61 := by rw [UInt32.le_iff_toNat_le]; exact hi
  simp [hpkGetHdr, tblGetField, hbig, hst]

theorem foldl_count (l : List DynHdr) (n : UInt32) :
    l.foldl (fun l _ => l + 1) n = n + UInt32.ofNat l.length := by
  induction l generalizing n with
  | nil => simp
  | cons x l ih =>
    rw [List.foldl_cons, ih]
    simp only [List.length_cons, UInt32.ofNat_add, UInt32.add_assoc]
    congr 1
    exact UInt32.add_comm _ _

theorem hpkGetTblLength_eq {ctx : HpkCtx} (hs : SizeOk ctx) :
    (hpkGetTblLength ctx).toNat = ctx.dyntbl.length := by
  have := length_le_weight ctx.dyntbl
  have hlt := ctx.size.toNat_lt
  rw [hs] at hlt
  rw [hpkGetTblLength, foldl_count, UInt32.zero_add, toNat_ofNat (by omega)]

/-! ## Histories -/

inductive TblOp where
  | push (h : HpkHdr)
  | resize (num : UInt32)

def TblOp.Named : TblOp → Prop
  | .push h => h.Named
  | .resize _ => True

def runOp (ctx : HpkCtx) : TblOp → Res HpkCtx
  | .push h => pushHeader ctx h
  | .resize num => hpkResizeTbl ctx num

def runOps (ctx : HpkCtx) (ops : List TblOp) : Res HpkCtx := ops.foldlM runOp ctx

def RfcTable.op (t : RfcTable) : TblOp → RfcTable
  | .push h =>
    match h.entry with
    | .ok e => t.add e
    | .error _ => t
  | .resize num => t.setMax num.toNat

theorem runOp_refines {ctx : HpkCtx} {t : RfcTable} {op : TblOp} (hr : Refines ctx t)
    (hn : op.Named) : ∃ ctx', runOp ctx op = .ok ctx' ∧ Refines ctx' (t.op op) := by
  cases op with
  | push h =>
    obtain ⟨e, he, hlen⟩ := hn
    obtain ⟨ctx', hp, hr'⟩ := pushHeader_refines hr he (by omega)
    exact ⟨ctx', hp, by simpa only [RfcTable.op, he] using hr'⟩
  | resize num => exact hpkResizeTbl_refines hr num

theorem runOps_refines {ops : List TblOp} (hn : ∀ op ∈ ops, op.Named) :
    ∀ {ctx : HpkCtx} {t : RfcTable}, Refines ctx t →
      ∃ ctx', runOps ctx ops = .ok ctx' ∧ Refines ctx' (ops.foldl RfcTable.op t) := by
  induction ops with
  | nil => intro ctx t hr; exact ⟨ctx, rfl, hr⟩
  | cons op ops ih =>
    intro ctx t hr
    obtain ⟨c1, h1, hr1⟩ := runOp_refines hr (hn op List.mem_cons_self)
    obtain ⟨c2, h2, hr2⟩ := ih (fun o ho => hn o (List.mem_cons_of_mem _ ho)) hr1
    refine ⟨c2, ?_, hr2⟩
    rw [runOps, List.foldlM_cons, h1]
    exact h2

theorem refines_new (m : UInt32) : Refines (hpkNewCtx m) (.empty m.toNat) := ⟨rfl, rfl, rfl⟩

/-- An insertion keeps the entries that fit behind the new one and drops no more, and an entry
that does not fit leaves the table empty. -/
def InsertOk (ctx : HpkCtx) : Prop :=
  ∀ (h : HpkHdr) (e : DynHdr), h.entry = .ok e → e.len < 2 ^ 32 - 61 →
    ∃ ctx', pushHeader ctx h = .ok ctx' ∧ ctx'.maxsize = ctx.maxsize ∧
      (e.len ≤ ctx.maxsize.toNat → ∃ k, k ≤ ctx.dyntbl.length ∧
        ctx'.dyntbl = e :: ctx.dyntbl.take k ∧
        e.len + weight DynHdr.len (ctx.dyntbl.take k) ≤ ctx.maxsize.toNat ∧
        (k < ctx.dyntbl.length →
          ctx.maxsize.toNat < e.len + weight DynHdr.len (ctx.dyntbl.take (k + 1)))) ∧
      (ctx.maxsize.toNat < e.len → ctx'.dyntbl = [])

/-- The lookups by a 32-bit index. -/
def LookupOk (ctx : HpkCtx) : Prop :=
  ∀ idx : UInt32,
    (1 ≤ idx.toNat → idx.toNat ≤ 61 → ∃ h, sttbl[idx.toNat]? = some h ∧
      hpkGetHdr ctx idx = some h ∧ tblGetKey ctx idx = some h.key ∧
      tblGetValue ctx idx = some h.value) ∧
    (62 ≤ idx.toNat →
      hpkGetHdr ctx idx = ctx.dyntbl[idx.toNat - 62]?.map (·.header idx) ∧
      tblGetKey ctx idx = ctx.dyntbl[idx.toNat - 62]?.map (fun dh => .of dh.key) ∧
      tblGetValue ctx idx = ctx.dyntbl[idx.toNat - 62]?.map fun dh => .of dh.value)

theorem Refines.insertOk {ctx : HpkCtx} {t : RfcTable} (hr : Refines ctx t) : InsertOk ctx := by
  intro h e he hlen
  obtain ⟨ctx', hp, hr'⟩ := pushHeader_refines hr he (by omega)
  refine ⟨ctx', hp, UInt32.toNat_inj.mp (hr'.maxsize.trans hr.maxsize.symm), ?_, ?_⟩
  · intro hfit
    obtain ⟨k, hk, hf, hle, hmax⟩ := fit_spec DynHdr.len (ctx.maxsize.toNat - e.len) ctx.dyntbl
    refine ⟨k, hk, ?_, by omega, fun hlt => by have := hmax hlt; omega⟩
    rw [hr'.dyntbl, ← hf, hr.dyntbl]
    simp only [RfcTable.add, insertFit, ← hr.maxsize, hfit, if_true]
  · intro hbig
    rw [hr'.dyntbl]
    simp only [RfcTable.add, insertFit, ← hr.maxsize, if_neg (Nat.not_le.mpr hbig)]

theorem SizeOk.lookupOk {ctx : HpkCtx} (hs : SizeOk ctx)
    (hw : weight DynHdr.len ctx.dyntbl < 2 ^ 32 - 61) : LookupOk ctx := by
  intro idx
  constructor
  · intro _ hi
    obtain ⟨h1, h2⟩ := lookup_static hw hs hi
    have hlt : idx.toNat < sttbl.length := by rw [length_sttbl]; omega
    have he : sttbl[idx.toNat]? = some (sttbl[idx.toNat]) := List.getElem?_eq_getElem hlt
    rw [he] at h1 h2
    exact ⟨_, he, h1, h2 true, h2 false⟩
  · intro hi
    obtain ⟨h1, h2⟩ := lookup_dyn hs hw hi
    exact ⟨h1, h2 true, h2 false⟩

/-- **The dynamic table is the list model.** Any history of insertions of named headers and of
resizes runs without a failed assertion, from a new context. The context it reaches is the table
of the list model: its byte counter is the sum of its entries and within the bound, the next
insertion evicts the shortest run of oldest entries, and an index finds the entry the list model
has there. -/
theorem hpack_table_refines_rfc (m : UInt32) (ops : List TblOp) (hn : ∀ op ∈ ops, op.Named) :
    ∃ ctx, runOps (hpkNewCtx m) ops = .ok ctx ∧
      Refines ctx (ops.foldl RfcTable.op (.empty m.toNat)) ∧
      ctx.size.toNat = weight DynHdr.len ctx.dyntbl ∧ ctx.size ≤ ctx.maxsize ∧ InsertOk ctx ∧
      (weight DynHdr.len ctx.dyntbl < 2 ^ 32 - 61 → LookupOk ctx) := by
  obtain ⟨ctx, h, hr⟩ := runOps_refines hn (refines_new m)
  exact ⟨ctx, h, hr, hr.size, hr.size_le, hr.insertOk, hr.size.lookupOk⟩

/-- Two insertions and a resize that evicts the older one. -/
theorem hpack_table_refines_rfc_evict :
    ∃ ctx, runOps (hpkNewCtx 100) [.push ⟨.of [97], .of [98], .inc, 0⟩,
        .push ⟨.of [99], .of [], .inc, 0⟩, .resize 40] = .ok ctx ∧
      ctx.dyntbl = [⟨[99], []⟩] ∧ ctx.size.toNat = 33 ∧ LookupOk ctx := by
  obtain ⟨ctx, h, hr, hs, _, _, hl⟩ := hpack_table_refines_rfc 100
    [.push ⟨.of [97], .of [98], .inc, 0⟩, .push ⟨.of [99], .of [], .inc, 0⟩, .resize 40] (by
      intro op hop
      simp only [List.mem_cons, List.not_mem_nil, or_false] at hop
      rcases hop with rfl | rfl | rfl
      · exact ⟨⟨[97], [98]⟩, rfl, by decide⟩
      · exact ⟨⟨[99], []⟩, rfl, by decide⟩
      · trivial)
  have hd : ctx.dyntbl = [⟨[99], []⟩] := hr.dyntbl
  rw [hd] at hs hl
  exact ⟨ctx, h, hd, hs, hl (by decide)⟩

end Hpack
end VTest
