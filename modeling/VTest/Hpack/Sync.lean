import VTest.Lib.Run
import VTest.Hpack.TableSpec
import VTest.Hpack.Codec

/-!
# VTest.Hpack.Sync

An encoder and a decoder that start with equal tables stay in step.

The encoder takes a name by its index and the decoder inserts the text it copied, so the two
insertions are compared through `pushEntry`, the insertion of a name and a value:

* `pushHeader_entry`: the decoder's insertion.
* `pushHeader_indexed`: the encoder's, as long as the eviction leaves the index alone.
* `headByte_lead`: the first byte the encoder writes has the bits the decoder dispatches on.
* `hpkDecHdr_of_legible`: one header.
* `syncStep_ok`: one step of a run.
-/

namespace VTest
namespace Hpack

/-! ## Insertion of a name and a value -/

/-- The eviction loop of `push_header`. -/
def evictFor (ctx : HpkCtx) (len : UInt32) : Res HpkCtx :=
  popWhile (fun c => c.maxsize - c.size < len) ctx.dyntbl.length ctx

/-- `push_header` of a header that has its own name. -/
def pushEntry (ctx : HpkCtx) (e : DynHdr) : Res HpkCtx := do
  check (ctx.size ≤ ctx.maxsize)
  if ctx.maxsize = 0 then return ctx
  let len := UInt32.ofNat e.len
  let ctx ← evictFor ctx len
  if len ≤ ctx.maxsize - ctx.size then
    return { ctx with dyntbl := e :: ctx.dyntbl, size := ctx.size + len }
  else return ctx

theorem len_of_deref {key value : HpkTxt} {e : DynHdr} (hk : key.deref = .ok e.key)
    (hv : value.deref = .ok e.value) : value.len + 32 + key.len = e.len := by
  rw [(deref_eq_ok hk).2, (deref_eq_ok hv).2, DynHdr.len]
  omega

theorem pushHeader_entry {h : HpkHdr} {e : DynHdr} (he : h.entry = .ok e) (ctx : HpkCtx) :
    pushHeader ctx h = pushEntry ctx e := by
  obtain ⟨hk, hv⟩ := entry_eq_ok he
  have hkey := pushKey_named (deref_eq_ok hk).1
  simp only [pushHeader, pushEntry, evictFor, hkey, ok_bind, len_of_deref hk hv, hk, hv]

theorem popHeader_dropLast {ctx ctx' : HpkCtx} (h : popHeader ctx = .ok ctx') :
    ctx'.dyntbl = ctx.dyntbl.dropLast := by
  unfold popHeader at h
  split at h
  · cases h
  · cases h; rfl

/-- Eviction only takes entries off the old end. -/
theorem popWhile_isPrefix {c : HpkCtx → Bool} :
    ∀ {n : Nat} {ctx ctx' : HpkCtx}, popWhile c n ctx = .ok ctx' →
      ctx'.dyntbl <+: ctx.dyntbl := by
  intro n
  induction n with
  | zero =>
    intro ctx ctx' h
    cases h
    exact List.prefix_rfl
  | succ n ih =>
    intro ctx ctx' h
    unfold popWhile at h
    split at h
    · obtain ⟨c1, h1, h2⟩ := bind_eq_ok.mp h
      have hd : c1.dyntbl <+: ctx.dyntbl := by
        rw [popHeader_dropLast h1]
        exact List.dropLast_prefix _
      exact (ih h2).trans hd
    · cases h
      exact List.prefix_rfl

theorem hpkGetHdr_of_popped {ctx ctx' : HpkCtx} {i : UInt32} {ih ih' : HpkHdr}
    (hp : ctx'.dyntbl <+: ctx.dyntbl) (h : hpkGetHdr ctx i = some ih)
    (h' : hpkGetHdr ctx' i = some ih') : ih' = ih := by
  unfold hpkGetHdr at h h'
  split at h
  · cases h
  · split at h'
    · cases h'
    · split at h
      · rename_i hi
        rw [if_pos hi, h] at h'
        cases h'; rfl
      · rename_i hi
        rw [if_neg hi, findDyn_eq] at h'
        rw [findDyn_eq] at h
        obtain ⟨dh, hd, rfl⟩ := Option.map_eq_some_iff.mp h'
        obtain ⟨old, ho⟩ := hp
        have hlt : (i - 62).toNat < ctx'.dyntbl.length := (List.getElem?_eq_some_iff.mp hd).1
        rw [← ho, List.getElem?_append_left hlt, hd] at h
        cases h; rfl

theorem pushKey_indexed {ctx : HpkCtx} {h ih : HpkHdr} (hn : h.key.ptr = .null) (hi : h.i ≠ 0)
    (hg : hpkGetHdr ctx h.i = some ih) : pushKey ctx h = .ok ih.key := by
  simp [pushKey, hn, hi, hg]

theorem pushKey_indexed_inv {ctx : HpkCtx} {h : HpkHdr} {key : HpkTxt} (hn : h.key.ptr = .null)
    (hp : pushKey ctx h = .ok key) : ∃ ih, hpkGetHdr ctx h.i = some ih ∧ key = ih.key := by
  unfold pushKey at hp
  rw [hn] at hp
  split at hp
  · split at hp
    · cases hp
    · split at hp
      · cases hp
      · rename_i ih hg
        cases hp
        exact ⟨ih, hg, rfl⟩
  · rename_i h0
    exact absurd rfl h0

/-- The name is looked up before and after the eviction. If both lookups find an entry, they find
the same one, since eviction does not renumber what it leaves. -/
theorem pushHeader_indexed {ctx ctx' : HpkCtx} {h ih : HpkHdr} {e : DynHdr}
    (hn : h.key.ptr = .null) (hi : h.i ≠ 0) (hg : hpkGetHdr ctx h.i = some ih)
    (hk : ih.key.deref = .ok e.key) (hv : h.value.deref = .ok e.value)
    (hp : pushHeader ctx h = .ok ctx') : pushEntry ctx e = .ok ctx' := by
  unfold pushHeader at hp
  obtain ⟨hle, hp⟩ := check_bind_eq_ok.mp hp
  simp only [pushEntry, hle, check_true, ok_bind]
  split at hp
  · rename_i h0
    rw [if_pos h0]
    exact hp
  · rename_i h0
    rw [if_neg h0]
    rw [pushKey_indexed hn hi hg, ok_bind, len_of_deref hk hv] at hp
    obtain ⟨c1, hc1, hp⟩ := bind_eq_ok.mp hp
    simp only [evictFor, hc1, ok_bind]
    split at hp
    · rename_i hroom
      rw [if_pos hroom]
      obtain ⟨key, hkey, hp⟩ := bind_eq_ok.mp hp
      obtain ⟨ih', hg', rfl⟩ := pushKey_indexed_inv hn hkey
      rw [hpkGetHdr_of_popped (popWhile_isPrefix hc1) hg hg', hk, ok_bind, hv, ok_bind] at hp
      exact hp
    · rename_i hroom
      rw [if_neg hroom]
      exact hp

/-! ## What the encoder writes first -/

theorem numEncLoop_done :
    ∀ {r done : Bytes} {num : UInt32} {ret : HpkResult} {it : HpkIter},
      numEncLoop done r num = .ok (ret, it) → done <+: it.done := by
  intro r
  induction r with
  | nil =>
    intro done num ret it h
    cases h
    exact List.prefix_rfl
  | cons b r ih =>
    intro done num ret it h
    unfold numEncLoop at h
    split at h
    · exact (List.prefix_append _ _).trans (ih h)
    · cases h
      exact List.prefix_append _ _

/-- The first byte of an integer keeps the bits above its prefix. -/
theorem numEncode_head {done r : Bytes} {b : UInt8} {pfx : Nat} {num : UInt32} {ret : HpkResult}
    {it : HpkIter} (h : numEncode ⟨done, b :: r⟩ pfx num = .ok (ret, it)) (hret : ret ≠ .err) :
    ∃ x : UInt8, x.toNat < 2 ^ pfx ∧
      done ++ [b &&& UInt8.ofNat (0xff * 2 ^ pfx) ||| x] <+: it.done := by
  unfold numEncode at h
  obtain ⟨_, h⟩ := check_bind_eq_ok.mp h
  obtain ⟨hle, h⟩ := check_bind_eq_ok.mp h
  obtain ⟨_, h⟩ := check_bind_eq_ok.mp h
  have hpos : 0 < 2 ^ pfx := Nat.two_pow_pos pfx
  have hpow : 2 ^ pfx ≤ 2 ^ 8 := Nat.pow_le_pow_right (by decide) (by simpa using hle)
  have hmax : (UInt8.ofNat (2 ^ pfx - 1)).toNat = 2 ^ pfx - 1 := by
    rw [UInt8.toNat_ofNat']
    exact Nat.mod_eq_of_lt (by omega)
  simp only at h
  split at h
  · rename_i hnum
    cases h
    refine ⟨num.toUInt8, ?_, List.prefix_rfl⟩
    rw [UInt32.le_iff_toNat_le] at hnum
    simp only [UInt8.toNat_toUInt32, hmax] at hnum
    rw [UInt32.toNat_toUInt8]
    exact Nat.lt_of_le_of_lt (Nat.mod_le _ _) (by omega)
  · split at h
    · cases h
      exact absurd rfl hret
    · exact ⟨UInt8.ofNat (2 ^ pfx - 1), by omega, numEncLoop_done h⟩

theorem numEncode_done {it it' : HpkIter} {pfx : Nat} {num : UInt32} {ret : HpkResult}
    (h : numEncode it pfx num = .ok (ret, it')) : it.done <+: it'.done := by
  unfold numEncode at h
  obtain ⟨_, h⟩ := check_bind_eq_ok.mp h
  obtain ⟨_, h⟩ := check_bind_eq_ok.mp h
  obtain ⟨_, h⟩ := check_bind_eq_ok.mp h
  split at h
  · cases h
  · simp only at h
    split at h
    · cases h
      exact List.prefix_append _ _
    · split at h
      · cases h
        exact List.prefix_rfl
      · exact (List.prefix_append _ _).trans (numEncLoop_done h)

theorem emitBytes_done :
    ∀ (n : Nat) (pack : UInt64) (pl : Nat) (it : HpkIter),
      it.done <+: (emitBytes n pack pl it).2.2.2.done := by
  intro n
  induction n with
  | zero => intro pack pl it; exact List.prefix_rfl
  | succ n ih =>
    intro pack pl it
    unfold emitBytes
    split
    · split
      · exact List.prefix_rfl
      · rename_i r _
        exact (List.prefix_append _ _).trans (ih _ _ ⟨it.done ++ [(pack >>> 56).toUInt8], r⟩)
    · exact List.prefix_rfl

theorem huffEncLoop_done :
    ∀ {str : Bytes} {pack : UInt64} {pl : Nat} {it it' : HpkIter} {ret : HpkResult},
      huffEncLoop str pack pl it = .ok (ret, it') → it.done <+: it'.done := by
  intro str
  induction str with
  | nil =>
    intro pack pl it it' ret h
    unfold huffEncLoop at h
    split at h
    · obtain ⟨_, h⟩ := check_bind_eq_ok.mp h
      split at h
      · cases h; exact List.prefix_rfl
      · cases h; exact List.prefix_append _ _
    · cases h; exact List.prefix_rfl
  | cons c str ih =>
    intro pack pl it it' ret h
    unfold huffEncLoop at h
    simp only at h
    split at h
    all_goals
      rename_i hem
      have hd := congrArg (fun r : Bool × UInt64 × Nat × HpkIter => it.done <+: r.2.2.2.done) hem
      simp only [emitBytes_done, eq_iff_iff, true_iff] at hd
    · cases h; exact hd
    · exact hd.trans (ih h)

/-- A string literal is written behind what is there. -/
theorem strEncode_done {it it' : HpkIter} {t : HpkTxt} {ret : HpkResult}
    (h : strEncode it t = .ok (ret, it')) : it.done <+: it'.done := by
  unfold strEncode at h
  obtain ⟨str, _, h⟩ := bind_eq_ok.mp h
  obtain ⟨_, h⟩ := check_bind_eq_ok.mp h
  obtain ⟨⟨ret1, it1⟩, h1, h⟩ := bind_eq_ok.mp h
  have hd := numEncode_done h1
  simp only at h hd
  split at h
  · cases h; exact hd
  · split at h
    · cases h; exact hd
    · split at h
      · obtain ⟨_, h⟩ := check_bind_eq_ok.mp h
        exact hd.trans (huffEncLoop_done h)
      · cases h
        exact hd.trans (List.prefix_append _ _)

/-! ## Dispatch -/

/-- The first byte and the prefix length of the representations. -/
def HpkIndexed.lead : HpkIndexed → UInt8
  | .idx => 0x80
  | .inc => 0x40
  | .never => 0x10
  | _ => 0x00

def HpkIndexed.pref : HpkIndexed → Nat
  | .idx => 7
  | .inc => 6
  | _ => 4

def HpkIndexed.literal : HpkIndexed → Bool
  | .inc => true
  | .not => true
  | .never => true
  | _ => false

theorem HpkIndexed.ne_idx {t : HpkIndexed} (ht : t.literal = true) : t ≠ .idx := by
  rintro rfl
  cases ht

theorem hpkEncHdr_lit (ctx : HpkCtx) (it : HpkIter) {h : HpkHdr} (ht : h.t.literal = true) :
    hpkEncHdr ctx it h = encLit ctx it h h.t.lead h.t.pref (h.t = .inc) := by
  unfold hpkEncHdr
  cases hh : h.t with
  | unset => rw [hh] at ht; cases ht
  | idx => rw [hh] at ht; cases ht
  | inc => rfl
  | not => rfl
  | never => rfl

/-- The byte an integer of prefix length `pfx` starts with, for the part `x` below the prefix. -/
def headByte (b : UInt8) (pfx : Nat) (x : UInt8) : UInt8 := b &&& UInt8.ofNat (0xff * 2 ^ pfx) ||| x

theorem headByte_idx : ∀ n : Fin (2 ^ 7), headByte 0x80 7 (UInt8.ofNat n.val) &&& 128 ≠ 0 := by
  decide

theorem headByte_inc : ∀ n : Fin (2 ^ 6), headByte 0x40 6 (UInt8.ofNat n.val) &&& 128 = 0 ∧
    headByte 0x40 6 (UInt8.ofNat n.val) >>> 6 = 1 := by
  decide

theorem headByte_not : ∀ n : Fin (2 ^ 4), headByte 0x00 4 (UInt8.ofNat n.val) &&& 128 = 0 ∧
    headByte 0x00 4 (UInt8.ofNat n.val) >>> 6 ≠ 1 ∧
    headByte 0x00 4 (UInt8.ofNat n.val) >>> 4 = 0 := by
  decide

theorem headByte_never : ∀ n : Fin (2 ^ 4), headByte 0x10 4 (UInt8.ofNat n.val) &&& 128 = 0 ∧
    headByte 0x10 4 (UInt8.ofNat n.val) >>> 6 ≠ 1 ∧
    headByte 0x10 4 (UInt8.ofNat n.val) >>> 4 = 1 := by
  decide

/-- The decoder takes the branch of the representation the encoder wrote. -/
theorem hpkDecHdr_lit (ctx : HpkCtx) (done r : Bytes) (h : HpkHdr) {t : HpkIndexed}
    (ht : t.literal = true) {x : UInt8} (hx : x.toNat < 2 ^ t.pref) :
    hpkDecHdr ctx ⟨done, headByte t.lead t.pref x :: r⟩ h =
      decLit ctx ⟨done, headByte t.lead t.pref x :: r⟩ { h with t := t } t.pref (t = .inc) := by
  cases t with
  | unset => cases ht
  | idx => cases ht
  | inc =>
    obtain ⟨h1, h2⟩ := headByte_inc ⟨x.toNat, hx⟩
    simp only [UInt8.ofNat_toNat] at h1 h2
    simp [hpkDecHdr, HpkIndexed.lead, HpkIndexed.pref, h1, h2]
  | not =>
    obtain ⟨h1, h2, h3⟩ := headByte_not ⟨x.toNat, hx⟩
    simp only [UInt8.ofNat_toNat] at h1 h2 h3
    simp [hpkDecHdr, HpkIndexed.lead, HpkIndexed.pref, h1, h2, h3]
  | never =>
    obtain ⟨h1, h2, h3⟩ := headByte_never ⟨x.toNat, hx⟩
    simp only [UInt8.ofNat_toNat] at h1 h2 h3
    simp [hpkDecHdr, HpkIndexed.lead, HpkIndexed.pref, h1, h2, h3]

theorem hpkDecHdr_idx (ctx : HpkCtx) (done r : Bytes) (h : HpkHdr) {x : UInt8}
    (hx : x.toNat < 2 ^ 7) :
    hpkDecHdr ctx ⟨done, headByte 0x80 7 x :: r⟩ h =
      decIdx ctx ⟨done, headByte 0x80 7 x :: r⟩ h := by
  have h1 := headByte_idx ⟨x.toNat, hx⟩
  rw [UInt8.ofNat_toNat] at h1
  simp only [hpkDecHdr, ne_eq, h1, not_false_eq_true, if_true]

/-! ## One header -/

/-- `num_decode` reads `num` from the bytes `w`, behind `done` and in front of `tail`. -/
def ReadsNum (done : Bytes) (pfx : Nat) (num : UInt32) (w tail : Bytes) : Prop :=
  numDecode ⟨done, w ++ tail⟩ pfx =
    .ok ((HpkIter.mk (done ++ w) tail).result, num, ⟨done ++ w, tail⟩)

/-- `str_decode` reads `t` from the bytes `w`, behind `done` and in front of `tail`. -/
def ReadsStr (done : Bytes) (t : HpkTxt) (w tail : Bytes) : Prop :=
  ∀ t0, strDecode ⟨done, w ++ tail⟩ t0 =
    .ok ((HpkIter.mk (done ++ w) tail).result, t, ⟨done ++ w, tail⟩)

/-- The bytes `w` of a header, behind `done` and in front of `tail`, are literals that read back,
each in its position. -/
inductive Legible (done : Bytes) (h : HpkHdr) : Bytes → Bytes → Prop where
  | idx {w tail : Bytes} (ht : h.t = .idx) (hi : ReadsNum done 7 h.i w tail) :
      Legible done h w tail
  | index {w1 w2 tail : Bytes} (ht : h.t.literal = true) (h0 : h.i ≠ 0)
      (hi : ReadsNum done h.t.pref h.i w1 (w2 ++ tail))
      (hv : ReadsStr (done ++ w1) h.value w2 tail) : Legible done h (w1 ++ w2) tail
  | name {b : UInt8} {w1 w2 tail : Bytes} (ht : h.t.literal = true) (h0 : h.i = 0)
      (hk : ReadsStr (done ++ [b]) h.key w1 (w2 ++ tail))
      (hv : ReadsStr (done ++ [b] ++ w1) h.value w2 tail) : Legible done h (b :: (w1 ++ w2)) tail

/-- A header a test can send: an index that resolves, or a literal with a value of its own and
either an index that resolves or a non-empty name. -/
def HpkHdr.Sendable (ctx : HpkCtx) (h : HpkHdr) : Prop :=
  (h.t = .idx ∧ (hpkGetHdr ctx h.i).isSome) ∨
  (h.t.literal = true ∧ (∃ v huff, h.value = .of v huff) ∧
    ((h.i ≠ 0 ∧ h.key.ptr = .null ∧ (hpkGetHdr ctx h.i).isSome) ∨
      (h.i = 0 ∧ ∃ k huff, k ≠ [] ∧ h.key = .of k huff)))

/-- The name and the value a header stands for. -/
def HpkHdr.denotes (ctx : HpkCtx) (h : HpkHdr) : Res DynHdr :=
  if h.t ≠ .idx ∧ h.i = 0 then h.entry
  else
    match hpkGetHdr ctx h.i with
    | none => .error .ub
    | some ih => HpkHdr.entry { ih with value := if h.t = .idx then ih.value else h.value }

@[simp] theorem deref_of (b : Bytes) (huff : Bool) : (HpkTxt.of b huff).deref = .ok b := by
  simp [HpkTxt.of, HpkTxt.deref]

/-- An index other than 0 that resolves stands for a live name and a live value. -/
theorem hpkGetHdr_live {ctx : HpkCtx} {i : UInt32} {ih : HpkHdr} (hg : hpkGetHdr ctx i = some ih)
    (h0 : i ≠ 0) : ∃ e : DynHdr, ih.key = .of e.key ∧ ih.value = .of e.value := by
  unfold hpkGetHdr at hg
  split at hg
  · cases hg
  · split at hg
    · obtain ⟨n, hn⟩ := Nat.exists_eq_succ_of_ne_zero
        (fun e => h0 (UInt32.toNat_inj.mp e) : i.toNat ≠ 0)
      rw [hn, sttbl, List.getElem?_cons_succ, List.getElem?_map] at hg
      obtain ⟨st, _, rfl⟩ := Option.map_eq_some_iff.mp hg
      exact ⟨⟨ascii st.1.1, ascii st.1.2⟩, rfl, rfl⟩
    · obtain ⟨dh, _, rfl⟩ := Option.map_eq_some_iff.mp hg
      exact ⟨dh, rfl, rfl⟩

theorem tblGetField_of_hdr {ctx : HpkCtx} {i : UInt32} {ih : HpkHdr}
    (hg : hpkGetHdr ctx i = some ih) (key : Bool) :
    tblGetField ctx i key = some (if key then ih.key else ih.value) := by
  unfold hpkGetHdr at hg
  unfold tblGetField
  split at hg
  · cases hg
  · rename_i hb
    rw [if_neg hb]
    split at hg
    · rename_i hs
      rw [if_pos hs, hg]
      rfl
    · rename_i hs
      rw [if_neg hs]
      obtain ⟨dh, hd, rfl⟩ := Option.map_eq_some_iff.mp hg
      rw [hd]
      cases key <;> rfl

theorem txtcpy_of (dst : HpkTxt) (b : Bytes) (huff : Bool) :
    txtcpy dst (.of b huff) = .ok (.of b dst.huff) := by
  simp [txtcpy, HpkTxt.of, HpkTxt.deref]

@[simp] theorem result_ne_err (it : HpkIter) : it.result ≠ .err := by
  unfold HpkIter.result
  split <;> decide

theorem result_more (done : Bytes) {left : Bytes} (h : left ≠ []) :
    (HpkIter.mk done left).result = .more := by
  simp [HpkIter.result, h]

/-- The decoder's side of an indexed header. -/
theorem decIdx_ok {ctx : HpkCtx} {h ih : HpkHdr} (slot : HpkHdr) {done w tail : Bytes}
    (hg : hpkGetHdr ctx h.i = some ih) (h0 : h.i ≠ 0) (hi : ReadsNum done 7 h.i w tail) :
    ∃ out, decIdx ctx ⟨done, w ++ tail⟩ slot =
        .ok ((HpkIter.mk (done ++ w) tail).result, out, ⟨done ++ w, tail⟩, ctx) ∧
      out.t = .idx ∧ out.entry = ih.entry := by
  obtain ⟨e, hk, hv⟩ := hpkGetHdr_live hg h0
  rw [ReadsNum] at hi
  have hkey := tblGetField_of_hdr hg true
  have hval := tblGetField_of_hdr hg false
  rw [if_pos rfl, hk] at hkey
  rw [if_neg (by decide), hv] at hval
  refine ⟨⟨.of e.key slot.key.huff, .of e.value slot.value.huff, .idx, slot.i⟩, ?_, rfl, ?_⟩
  · simp [decIdx, hi, h0, tblGetKey, tblGetValue, hkey, hval, txtcpy_of]
  · simp [HpkHdr.entry, hk, hv]

/-- The decoder's side of a literal, once its name is read. -/
theorem decLit_ok {ctx ctx' : HpkCtx} {slot : HpkHdr} (named : HpkHdr) (e : DynHdr)
    {value : HpkTxt} {pref : Nat} {mustIndex : Bool} {num : UInt32} {done w w1 w2 tail : Bytes}
    {it : HpkIter} (hi : numDecode ⟨done, w⟩ pref = .ok (.more, num, it))
    (hn : decName ctx it { slot with i := num } = .ok (.more, named, ⟨w1, w2 ++ tail⟩, ctx))
    (hv : ReadsStr w1 value w2 tail)
    (he : HpkHdr.entry { named with value := value } = .ok e)
    (hp : mustIndex = true → pushEntry ctx e = .ok ctx') (hc : mustIndex = false → ctx' = ctx) :
    decLit ctx ⟨done, w⟩ slot pref mustIndex =
      .ok ((HpkIter.mk (w1 ++ w2) tail).result, { named with value := value },
        ⟨w1 ++ w2, tail⟩, ctx') := by
  have hv := hv named.value
  have hpush : pushIf mustIndex ctx { named with value := value } = .ok ctx' := by
    cases mustIndex with
    | false => rw [hc rfl]; rfl
    | true => rw [pushIf, if_pos rfl, pushHeader_entry he]; exact hp rfl
  simp [decLit, hi, hn, hv, hpush]

/-- A string literal is not empty. -/
theorem ReadsStr.ne_nil {done w tail : Bytes} {t : HpkTxt} (h : ReadsStr done t w tail) :
    w ++ tail ≠ [] := by
  intro e
  have := h {}
  rw [e] at this
  simp [strDecode] at this

theorem setCur_inv {done buf : Bytes} {b : UInt8} {it : HpkIter}
    (h : setCur ⟨done, buf⟩ b = .ok it) : ∃ r, it = ⟨done, b :: r⟩ := by
  unfold setCur at h
  split at h
  · cases h
  · cases h; exact ⟨_, rfl⟩

theorem encIdx_inv {ctx ctx' : HpkCtx} {done buf : Bytes} {h : HpkHdr} {ret : HpkResult}
    {it : HpkIter} (he : encIdx ctx ⟨done, buf⟩ h = .ok (ret, it, ctx')) :
    (∃ x : UInt8, x.toNat < 2 ^ 7 ∧ done ++ [headByte 0x80 7 x] <+: it.done) ∧ ctx' = ctx := by
  unfold encIdx at he
  obtain ⟨it0, h0, he⟩ := bind_eq_ok.mp he
  obtain ⟨r, rfl⟩ := setCur_inv h0
  obtain ⟨⟨ret1, it1⟩, h1, he⟩ := bind_eq_ok.mp he
  obtain ⟨hret, he⟩ := check_bind_eq_ok.mp he
  cases he
  obtain ⟨x, hx, hp⟩ := numEncode_head h1 (by simpa using hret)
  exact ⟨⟨x, hx, hp⟩, rfl⟩

/-- The encoder's side of a literal: the byte it starts with, and the insertion. -/
theorem encLit_inv {ctx ctx' : HpkCtx} {done buf : Bytes} {h : HpkHdr} {b : UInt8} {pref : Nat}
    {mustIndex : Bool} {ret : HpkResult} {it : HpkIter}
    (he : encLit ctx ⟨done, buf⟩ h b pref mustIndex = .ok (ret, it, ctx')) (hret : ret ≠ .err) :
    (h.i ≠ 0 → ∃ x : UInt8, x.toNat < 2 ^ pref ∧ done ++ [headByte b pref x] <+: it.done) ∧
      (h.i = 0 → done ++ [b] <+: it.done) ∧ pushIf mustIndex ctx h = .ok ctx' := by
  unfold encLit at he
  obtain ⟨it0, h0, he⟩ := bind_eq_ok.mp he
  obtain ⟨r, rfl⟩ := setCur_inv h0
  obtain ⟨⟨ret1, it1⟩, h1, he⟩ := bind_eq_ok.mp he
  simp only at he
  split at he
  · cases he; exact absurd rfl hret
  · rename_i hmore
    obtain ⟨⟨ret2, it2⟩, h2, he⟩ := bind_eq_ok.mp he
    have hd := strEncode_done h2
    simp only at he
    split at he
    · cases he; exact absurd rfl hret
    · obtain ⟨c1, hpush, he⟩ := bind_eq_ok.mp he
      cases he
      refine ⟨?_, ?_, hpush⟩
      · intro hi
        rw [encName, if_pos hi] at h1
        obtain ⟨x, hx, hp⟩ := numEncode_head h1 (by rintro rfl; exact hmore (by decide))
        exact ⟨x, hx, hp.trans hd⟩
      · intro hi
        rw [encName, if_neg (not_not.mpr hi)] at h1
        exact (strEncode_done h1).trans hd

theorem headByte_lead {t : HpkIndexed} (ht : t.literal = true) :
    headByte t.lead t.pref 0 = t.lead := by
  cases t with
  | unset => cases ht
  | idx => cases ht
  | inc => rfl
  | not => rfl
  | never => rfl

/-- The bytes of a header start with the bits of its representation. -/
def HpkHdr.Starts (h : HpkHdr) (w : Bytes) : Prop :=
  ∃ (x : UInt8) (r : Bytes), x.toNat < 2 ^ h.t.pref ∧ (h.t.literal = true → h.i = 0 → x = 0) ∧
    w = headByte h.t.lead h.t.pref x :: r

theorem Starts.of_isPrefix {h : HpkHdr} {done all : Bytes} {x : UInt8}
    (hx : x.toNat < 2 ^ h.t.pref) (h0 : h.t.literal = true → h.i = 0 → x = 0)
    (hp : done ++ [headByte h.t.lead h.t.pref x] <+: all) : ∃ w, all = done ++ w ∧ h.Starts w := by
  obtain ⟨r, rfl⟩ := hp
  exact ⟨headByte h.t.lead h.t.pref x :: r, by simp, x, r, hx, h0, rfl⟩

/-- What an encoding step does: the bytes it writes, and the insertion. -/
theorem hpkEncHdr_inv {ctx ctx' : HpkCtx} {done buf : Bytes} {h : HpkHdr} {ret : HpkResult}
    {it : HpkIter} (he : hpkEncHdr ctx ⟨done, buf⟩ h = .ok (ret, it, ctx')) (hret : ret ≠ .err) :
    (∃ w, it.done = done ++ w ∧ h.Starts w) ∧ pushIf (h.t = .inc) ctx h = .ok ctx' := by
  cases hlit : h.t.literal with
  | true =>
    rw [hpkEncHdr_lit ctx _ hlit] at he
    obtain ⟨hindex, hown, hp⟩ := encLit_inv he hret
    refine ⟨?_, hp⟩
    by_cases h0 : h.i = 0
    · exact Starts.of_isPrefix (x := 0) (Nat.two_pow_pos _) (fun _ _ => rfl)
        (by rw [headByte_lead hlit]; exact hown h0)
    · obtain ⟨x, hx, hp⟩ := hindex h0
      exact Starts.of_isPrefix hx (fun _ e => absurd e h0) hp
  | false =>
    cases ht : h.t with
    | idx =>
      rw [hpkEncHdr, ht] at he
      obtain ⟨⟨x, hx, hp⟩, rfl⟩ := encIdx_inv he
      exact ⟨Starts.of_isPrefix (h := h) (by rw [ht]; exact hx) (by rw [hlit]; simp)
        (by rw [ht]; exact hp), rfl⟩
    | unset => rw [hpkEncHdr, ht] at he; cases he
    | inc | not | never => rw [ht] at hlit; cases hlit

/-- What a header does to a table: it can be sent, it stands for `e`, and the table is `ctx'`
afterwards. -/
structure Effect (ctx : HpkCtx) (h : HpkHdr) (e : DynHdr) (ctx' : HpkCtx) : Prop where
  sendable : h.Sendable ctx
  nonzero : h.t = .idx → h.i ≠ 0
  denotes : h.denotes ctx = .ok e
  push : pushIf (h.t = .inc) ctx h = .ok ctx'

theorem denotes_of_sendable {ctx : HpkCtx} {h : HpkHdr} (hs : h.Sendable ctx)
    (h0 : h.t = .idx → h.i ≠ 0) : ∃ e, h.denotes ctx = .ok e := by
  rcases hs with ⟨ht, hg⟩ | ⟨ht, ⟨v, hufv, hval⟩, ⟨hi, _, hg⟩ | ⟨hi, k, hufk, _, hkey⟩⟩
  · obtain ⟨ih, hg⟩ := Option.isSome_iff_exists.mp hg
    obtain ⟨e, hk, hv⟩ := hpkGetHdr_live hg (h0 ht)
    exact ⟨e, by simp [HpkHdr.denotes, ht, hg, HpkHdr.entry, hk, hv]⟩
  · obtain ⟨ih, hg⟩ := Option.isSome_iff_exists.mp hg
    obtain ⟨e, hk, hv⟩ := hpkGetHdr_live hg hi
    exact ⟨⟨e.key, v⟩,
      by simp [HpkHdr.denotes, HpkIndexed.ne_idx ht, hi, hg, HpkHdr.entry, hk, hval]⟩
  · exact ⟨⟨k, v⟩, by simp [HpkHdr.denotes, HpkIndexed.ne_idx ht, hi, HpkHdr.entry, hkey, hval]⟩

/-- The insertion is that of the name and the value the header stands for. -/
theorem Effect.pushEntry {ctx ctx' : HpkCtx} {h : HpkHdr} {e : DynHdr} (hf : Effect ctx h e ctx')
    (hinc : h.t = .inc) : pushEntry ctx e = .ok ctx' := by
  have hp := hf.push
  rw [pushIf, if_pos (by simp [hinc])] at hp
  have hden := hf.denotes
  rcases hf.sendable with ⟨ht, _⟩ | ⟨ht, ⟨v, hufv, hval⟩, ⟨hi, hn, hg⟩ | ⟨hi, _⟩⟩
  · rw [ht] at hinc
    cases hinc
  · obtain ⟨ih, hg⟩ := Option.isSome_iff_exists.mp hg
    obtain ⟨e0, hk, _⟩ := hpkGetHdr_live hg hi
    simp [HpkHdr.denotes, HpkIndexed.ne_idx ht, hi, hg, HpkHdr.entry, hk, hval] at hden
    subst hden
    exact pushHeader_indexed hn hi hg (by rw [hk, deref_of]) (by rw [hval, deref_of]) hp
  · simp only [HpkHdr.denotes, ne_eq, HpkIndexed.ne_idx ht, not_false_eq_true, hi, and_self,
      if_true] at hden
    rwa [pushHeader_entry hden] at hp

theorem Effect.of_ne_inc {ctx ctx' : HpkCtx} {h : HpkHdr} {e : DynHdr} (hf : Effect ctx h e ctx')
    (hinc : h.t ≠ .inc) : ctx' = ctx := by
  have hp := hf.push
  rw [pushIf, if_neg (by simp [hinc])] at hp
  cases hp
  rfl

/-- Behind the first byte of a literal with its own name, the index reads 0. -/
theorem numDecode_lead {t : HpkIndexed} (ht : t.literal = true) (done : Bytes) {r : Bytes}
    (hr : r ≠ []) :
    numDecode ⟨done, t.lead :: r⟩ t.pref = .ok (.more, 0, ⟨done ++ [t.lead], r⟩) := by
  cases r with
  | nil => exact absurd rfl hr
  | cons c r =>
    cases t with
    | unset => cases ht
    | idx => cases ht
    | inc => rfl
    | not => rfl
    | never => rfl

/-- The decoder has the header `h`, which stood for `e`. -/
def Decoded (h : HpkHdr) (e : DynHdr) (out : HpkHdr) : Prop := out.t = h.t ∧ out.entry = .ok e

/-- A literal that takes its name from the table. -/
theorem decode_index {ctx ctx' : HpkCtx} {h slot : HpkHdr} {e : DynHdr} {done w1 w2 tail : Bytes}
    (hf : Effect ctx h e ctx') (ht : h.t.literal = true) (h0 : h.i ≠ 0)
    (hi : ReadsNum done h.t.pref h.i w1 (w2 ++ tail))
    (hv : ReadsStr (done ++ w1) h.value w2 tail) (hd : h.Starts (w1 ++ w2)) :
    ∃ out, hpkDecHdr ctx ⟨done, (w1 ++ w2) ++ tail⟩ slot =
        .ok ((HpkIter.mk (done ++ (w1 ++ w2)) tail).result, out, ⟨done ++ (w1 ++ w2), tail⟩, ctx') ∧
      Decoded h e out := by
  have htidx := HpkIndexed.ne_idx ht
  rcases hf.sendable with ⟨hti, _⟩ | ⟨_, ⟨v, hufv, hval⟩, ⟨_, hn, hg⟩ | ⟨hi0, _⟩⟩
  · exact absurd hti htidx
  · obtain ⟨ih, hg⟩ := Option.isSome_iff_exists.mp hg
    obtain ⟨e0, hk, _⟩ := hpkGetHdr_live hg h0
    have hden := hf.denotes
    simp [HpkHdr.denotes, htidx, h0, hg, HpkHdr.entry, hk, hval] at hden
    subst hden
    obtain ⟨x, r, hx, _, hr⟩ := hd
    have hkey := tblGetField_of_hdr hg true
    rw [if_pos rfl, hk] at hkey
    have hnum : numDecode ⟨done, (w1 ++ w2) ++ tail⟩ h.t.pref =
        .ok (.more, h.i, ⟨done ++ w1, w2 ++ tail⟩) := by
      rw [List.append_assoc, hi, result_more _ hv.ne_nil]
    refine ⟨⟨.of e0.key slot.key.huff, h.value, h.t, h.i⟩, ?_, rfl, ?_⟩
    · rw [hr, List.cons_append, hpkDecHdr_lit ctx done _ slot ht hx, ← List.cons_append, ← hr,
        ← List.append_assoc]
      refine decLit_ok ⟨.of e0.key slot.key.huff, slot.value, h.t, h.i⟩ ⟨e0.key, v⟩
        hnum ?_ hv ?_ ?_ ?_
      · simp [decName, h0, tblGetKey, hkey, txtcpy_of]
      · simp [HpkHdr.entry, hval]
      · exact fun hinc => hf.pushEntry (by simpa using hinc)
      · exact fun hinc => hf.of_ne_inc (by simpa using hinc)
    · simp [HpkHdr.entry, hval]
  · exact absurd hi0 h0

/-- A literal with its own name. -/
theorem decode_name {ctx ctx' : HpkCtx} {h slot : HpkHdr} {e : DynHdr} {done w1 w2 tail : Bytes}
    {b : UInt8} (hf : Effect ctx h e ctx') (ht : h.t.literal = true) (h0 : h.i = 0)
    (hk : ReadsStr (done ++ [b]) h.key w1 (w2 ++ tail))
    (hv : ReadsStr (done ++ [b] ++ w1) h.value w2 tail) (hd : h.Starts (b :: (w1 ++ w2))) :
    ∃ out, hpkDecHdr ctx ⟨done, b :: (w1 ++ w2) ++ tail⟩ slot =
        .ok ((HpkIter.mk (done ++ b :: (w1 ++ w2)) tail).result, out,
          ⟨done ++ b :: (w1 ++ w2), tail⟩, ctx') ∧ Decoded h e out := by
  have htidx := HpkIndexed.ne_idx ht
  rcases hf.sendable with ⟨hti, _⟩ | ⟨_, ⟨v, hufv, hval⟩, ⟨hi0, _⟩ | ⟨_, k, hufk, _, hkey⟩⟩
  · exact absurd hti htidx
  · exact absurd h0 hi0
  · have hentry : h.entry = .ok ⟨k, v⟩ := by simp [HpkHdr.entry, hkey, hval]
    have hden := hf.denotes
    simp [HpkHdr.denotes, htidx, h0, hentry] at hden
    subst hden
    obtain ⟨x, r, hx, hx0, hr⟩ := hd
    cases hx0 ht h0
    rw [headByte_lead ht] at hr
    cases hr
    have hne : w1 ++ (w2 ++ tail) ≠ [] := hk.ne_nil
    have hpos : done ++ h.t.lead :: (w1 ++ w2) = done ++ [h.t.lead] ++ w1 ++ w2 := by simp
    refine ⟨⟨h.key, h.value, h.t, 0⟩, ?_, rfl, ?_⟩
    · have hdisp := hpkDecHdr_lit ctx done (w1 ++ w2 ++ tail) slot ht (x := 0) hx
      rw [headByte_lead ht] at hdisp
      rw [List.cons_append, hdisp, hpos, List.append_assoc w1]
      refine decLit_ok ⟨h.key, slot.value, h.t, 0⟩ ⟨k, v⟩
        (numDecode_lead ht done hne) ?_ hv ?_ ?_ ?_
      · have hs := hk slot.key
        simp only [decName, ne_eq, not_true_eq_false, if_false, hs, ok_bind]
        simp [result_more _ hv.ne_nil]
      · simp [HpkHdr.entry, hkey, hval]
      · exact fun hinc => hf.pushEntry (by simpa using hinc)
      · exact fun hinc => hf.of_ne_inc (by simpa using hinc)
    · simp [HpkHdr.entry, hkey, hval]

/-- One header: what has an effect on the encoder's table, and the literals of which read back,
the decoder decodes to the same header, with the same table afterwards. -/
theorem hpkDecHdr_of_legible {ctx ctx' : HpkCtx} {h : HpkHdr} {e : DynHdr} (slot : HpkHdr)
    {done w tail : Bytes} (hf : Effect ctx h e ctx') (hd : h.Starts w)
    (hl : Legible done h w tail) :
    ∃ out, hpkDecHdr ctx ⟨done, w ++ tail⟩ slot =
        .ok ((HpkIter.mk (done ++ w) tail).result, out, ⟨done ++ w, tail⟩, ctx') ∧
      Decoded h e out := by
  cases hl with
  | idx ht hi =>
    rcases hf.sendable with ⟨_, hg⟩ | ⟨hlit, _⟩
    · obtain ⟨ih, hg⟩ := Option.isSome_iff_exists.mp hg
      obtain ⟨x, r, hx, _, hr⟩ := hd
      rw [ht] at hx hr
      obtain ⟨out, hdec, hot, hoe⟩ := decIdx_ok slot hg (hf.nonzero ht) hi
      cases hf.of_ne_inc (by rw [ht]; decide)
      refine ⟨out, ?_, hot.trans ht.symm, ?_⟩
      · rw [← hdec, hr]
        exact hpkDecHdr_idx _ done _ slot hx
      · have hden := hf.denotes
        simp only [HpkHdr.denotes, ht, ne_eq, not_true_eq_false, false_and, if_false, hg,
          if_true] at hden
        exact hoe.trans hden
    · rw [ht] at hlit
      cases hlit
  | index ht h0 hi hv => exact decode_index hf ht h0 hi hv hd
  | name ht h0 hk hv => exact decode_name hf ht h0 hk hv hd

/-! ## Runs -/

theorem popWhile_total (c : HpkCtx → Bool) : ∀ (n : Nat) (ctx : HpkCtx),
    ∃ ctx', popWhile c n ctx = .ok ctx' ∧ ctx'.maxsize = ctx.maxsize := by
  intro n
  induction n with
  | zero => intro ctx; exact ⟨ctx, rfl, rfl⟩
  | succ n ih =>
    intro ctx
    unfold popWhile
    split
    · rename_i hc
      have hne : ctx.dyntbl ≠ [] := by
        rintro e
        simp [e] at hc
      simp only [popHeader, List.getLast?_eq_some_getLast hne, ok_bind]
      exact ih _
    · exact ⟨ctx, rfl, rfl⟩

/-- A resize always goes through, and leaves the size it was asked for as the bound. -/
theorem hpkResizeTbl_total (ctx : HpkCtx) (num : UInt32) :
    ∃ ctx', hpkResizeTbl ctx num = .ok ctx' ∧ ctx'.maxsize = num :=
  popWhile_total (fun c => c.maxsize < c.size) ctx.dyntbl.length { ctx with maxsize := num }

/-- One header that went through both sides: what was sent and what it stood for, and what came
out. -/
structure Exchange where
  sent : HpkHdr
  denoted : Res DynHdr
  ret : HpkResult
  out : HpkHdr
  left : Bytes

/-- The decoder reported no error, used up the bytes, and has the header that was sent. -/
def Exchange.Faithful (x : Exchange) : Prop :=
  x.ret = .done ∧ x.left = [] ∧ x.out.t = x.sent.t ∧
    ∃ e, x.denoted = .ok e ∧ x.out.entry = .ok e

structure SyncSt where
  enc : HpkCtx
  dec : HpkCtx
  log : List Exchange

/-- A step resizes both tables, or encodes a header into `buf` and decodes exactly the bytes
written, into the header slot `slot`. -/
inductive SyncOp where
  | resize (num : UInt32)
  | header (h : HpkHdr) (buf : Bytes) (slot : HpkHdr)

def syncStep (s : SyncSt) : SyncOp → Res SyncSt
  | .resize num => do
    let enc ← hpkResizeTbl s.enc num
    let dec ← hpkResizeTbl s.dec num
    return { s with enc := enc, dec := dec }
  | .header h buf slot => do
    let (_, it, enc) ← hpkEncHdr s.enc ⟨[], buf⟩ h
    let (ret, out, it', dec) ← hpkDecHdr s.dec ⟨[], it.done⟩ slot
    return ⟨enc, dec, s.log ++ [⟨h, h.denotes s.enc, ret, out, it'.left⟩]⟩

/-- The encoder completes, and the literals it wrote read back. -/
def Completes (ctx : HpkCtx) (h : HpkHdr) (buf : Bytes) : Prop :=
  ∃ ret it ctx', hpkEncHdr ctx ⟨[], buf⟩ h = .ok (ret, it, ctx') ∧ ret ≠ .err ∧
    Legible [] h it.done []

def SyncOk (s : SyncSt) : SyncOp → Prop
  | .resize _ => True
  | .header h buf _ =>
    h.Sendable s.enc ∧ (h.t = .idx → h.i ≠ 0) ∧ Completes s.enc h buf

structure InSync (s : SyncSt) : Prop where
  same : s.dec = s.enc
  log : ∀ x ∈ s.log, x.Faithful

theorem syncStep_ok {s : SyncSt} {op : SyncOp} (hi : InSync s) (hok : SyncOk s op) :
    ∃ s', syncStep s op = .ok s' ∧ InSync s' := by
  cases op with
  | resize num =>
    obtain ⟨c, hc, -⟩ := hpkResizeTbl_total s.enc num
    refine ⟨⟨c, c, s.log⟩, ?_, rfl, hi.log⟩
    simp [syncStep, hi.same, hc]
  | header h buf slot =>
    obtain ⟨hs, h0, ret, it, ctx', he, hret, hl⟩ := hok
    obtain ⟨⟨w, hw, hd⟩, hp⟩ := hpkEncHdr_inv he hret
    obtain ⟨e, hden⟩ := denotes_of_sendable hs h0
    rw [hw, List.nil_append] at hl
    obtain ⟨out, hdec, hot, hoe⟩ := hpkDecHdr_of_legible slot ⟨hs, h0, hden, hp⟩ hd hl
    rw [List.append_nil, List.nil_append] at hdec
    rw [List.nil_append] at hw
    refine ⟨⟨ctx', ctx', s.log ++ [⟨h, h.denotes s.enc, .done, out, []⟩]⟩, ?_, rfl, ?_⟩
    · simp only [syncStep, he, ok_bind, hi.same, hw, hdec, pure_res]
      rfl
    · intro x hx
      rcases List.mem_append.mp hx with hx | hx
      · exact hi.log x hx
      · rw [List.mem_singleton] at hx
        subst hx
        exact ⟨rfl, rfl, hot, e, hden, hoe⟩

/-- **Encoder and decoder stay in step.** Start both with the table `ctx`. Any sequence of resizes
of both sides and of headers that the encoder completes and that read back literal by literal runs
to its end, every header comes out as it was sent, and the two tables are equal at the end, so also
after every step. An indexed header must not have index 0, which stands for no header and which
the decoder rejects. -/
theorem hpack_sides_stay_in_step (ctx : HpkCtx) (ops : List SyncOp)
    (hok : Along syncStep SyncOk ⟨ctx, ctx, []⟩ ops) :
    ∃ ctx' log, run syncStep ⟨ctx, ctx, []⟩ ops = .ok ⟨ctx', ctx', log⟩ ∧
      ∀ x ∈ log, x.Faithful := by
  obtain ⟨⟨enc, dec, log⟩, hrun, hsame, hlog⟩ := run_total (I := InSync)
    (fun s op => syncStep_ok) ops ⟨ctx, ctx, []⟩ ⟨rfl, by simp⟩ hok
  simp only at hsame
  subst hsame
  exact ⟨dec, log, hrun, hlog⟩

/-- A header with a new name goes into both tables, and the next one takes its name from there. -/
theorem hpack_sides_stay_in_step_index : ∃ ctx' log,
    run syncStep ⟨hpkNewCtx 100, hpkNewCtx 100, []⟩
        [.header ⟨.of [97], .of [98], .inc, 0⟩ (List.replicate 9 0) {},
          .header ⟨{}, .of [99], .inc, 62⟩ (List.replicate 9 0) {}] = .ok ⟨ctx', ctx', log⟩ ∧
      ∀ x ∈ log, x.Faithful := by
  refine hpack_sides_stay_in_step (hpkNewCtx 100) _ ⟨⟨?_, by decide, ?_⟩, ?_⟩
  · exact .inr ⟨rfl, ⟨[98], false, rfl⟩, .inr ⟨rfl, [97], false, by decide, rfl⟩⟩
  · refine ⟨.more, ⟨[0x40, 1, 97, 1, 98], [0, 0, 0, 0]⟩, ⟨[⟨[97], [98]⟩], 100, 34⟩, rfl,
      by decide, ?_⟩
    show Legible [] _ (0x40 :: ([1, 97] ++ [1, 98])) []
    exact .name rfl rfl (fun _ => rfl) (fun _ => rfl)
  · intro s' h
    cases h
    refine ⟨⟨.inr ⟨rfl, ⟨[99], false, rfl⟩, .inl ⟨by decide, rfl, rfl⟩⟩, by decide, ?_⟩,
      fun _ _ => trivial⟩
    refine ⟨.more, ⟨[0x7e, 1, 99], [0, 0, 0, 0, 0, 0]⟩, ⟨[⟨[97], [99]⟩, ⟨[97], [98]⟩], 100, 68⟩,
      rfl, by decide, ?_⟩
    show Legible [] _ ([0x7e] ++ [1, 99]) []
    exact .index rfl (by decide) rfl (fun _ => rfl)

/-- The encoder writes an indexed header with index 0, which `HPK_GetHdr` resolves to the
placeholder of the static table, and the decoder rejects the byte. -/
theorem hpack_index_zero_rejected :
    HpkHdr.Sendable (hpkNewCtx 4096) { t := .idx } ∧
      Completes (hpkNewCtx 4096) { t := .idx } [0, 0] ∧
      run syncStep ⟨hpkNewCtx 4096, hpkNewCtx 4096, []⟩ [.header { t := .idx } [0, 0] {}] =
        .ok ⟨hpkNewCtx 4096, hpkNewCtx 4096,
          [⟨{ t := .idx }, .error .ub, .err, { t := .idx }, []⟩]⟩ := by
  refine ⟨.inl ⟨rfl, rfl⟩, ?_, rfl⟩
  exact ⟨.more, ⟨[0x80], [0]⟩, hpkNewCtx 4096, rfl, by decide, .idx rfl rfl⟩

end Hpack
end VTest
