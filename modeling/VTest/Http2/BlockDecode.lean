import VTest.Hpack.Progress
import VTest.Http2.HdrBlock

/-!
# VTest.Http2.BlockDecode

`decode_hdr` on header blocks that may be anything: how often it calls `HPK_DecHdr`, and what it
leaves behind when a call fails.

A block is read as a sequence of header field representations (`Rep`), each of which stands for a
name and a value in the table as it is then (`FieldStep`).

* `hpack_decoding_progresses`: positions, number of calls, and output of the Huffman decoder.
* `FieldStep.decodes`, `hpkDecHdr_cases`: `HPK_DecHdr` against the representations.
* `failed_block_whole_iff`: `t` is set before anything is decoded, so the slot of the representation
  that fails counts as a header.
-/

namespace VTest
namespace Http2

open Hpack

/-! ## The calls of `decode_hdr` -/

/-- `HPK_DecHdr`, or a machine's version of it. -/
abbrev DecHdr := HpkCtx → HpkIter → HpkHdr → Res (HpkResult × HpkHdr × HpkIter × HpkCtx)

/-- The positions at which the loop calls it, as far as the loop gets. -/
def decodeCalls (dec : DecHdr) (ctx : HpkCtx) (it : HpkIter) : List HpkHdr → List HpkIter
  | [] => []
  | h :: hs => it ::
    match dec ctx it h with
    | .ok (.more, _, it', ctx') => decodeCalls dec ctx' it' hs
    | _ => []

def decodeHdrCalls (dec : DecHdr) (ctx : HpkCtx) (h : List HpkHdr) (vsb : Bytes) : List HpkIter :=
  if vsb.isEmpty then [] else decodeCalls dec ctx ⟨[], vsb⟩ (h.drop (headersOf h).length)

/-- The loop that returns has made one call for every header, and one more if that failed. -/
theorem length_decodeCalls : ∀ (hs : List HpkHdr) (r : HpkResult) (ctx : HpkCtx) (it : HpkIter)
    (p : HpkResult × List HpkHdr × Nat × HpkCtx), hs ≠ [] → decodeLoop r ctx it hs = .ok p →
    (decodeCalls hpkDecHdr ctx it hs).length = p.2.2.1 + if p.1 = .err then 1 else 0 := by
  intro hs
  induction hs with
  | nil => intro r ctx it p hne; exact absurd rfl hne
  | cons h hs ih =>
    intro r ctx it p _ hp
    obtain ⟨⟨r1, h1, it1, ctx1⟩, hdec, hp⟩ := bind_eq_ok.mp hp
    rw [decodeCalls, hdec]
    cases r1 with
    | err => cases hp; rfl
    | done => cases hp; rfl
    | more =>
      obtain ⟨⟨r2, hs2, n2, ctx2⟩, hloop, hp⟩ := bind_eq_ok.mp hp
      cases hp
      simp only [List.length_cons]
      cases hs with
      | nil =>
        cases hloop
        rfl
      | cons h' hs =>
        rw [ih _ _ _ _ (List.cons_ne_nil _ _) hloop]
        exact Nat.add_right_comm n2 _ 1

theorem decodeCalls_bounded {dec : DecHdr} (hdec : ∀ ctx it h h' it' ctx', it.left ≠ [] →
      dec ctx it h = .ok (.more, h', it', ctx') → Steps it .more it') :
    ∀ (hs : List HpkHdr) (ctx : HpkCtx) (it : HpkIter), it.left ≠ [] →
      (decodeCalls dec ctx it hs).length ≤ hs.length ∧
      (decodeCalls dec ctx it hs).length ≤ it.left.length ∧
      ∀ c ∈ decodeCalls dec ctx it hs, c.left ≠ [] := by
  intro hs
  induction hs with
  | nil => intro ctx it _; exact ⟨Nat.le_refl 0, Nat.zero_le _, fun c hc => nomatch hc⟩
  | cons h hs ih =>
    intro ctx it hne
    have hpos := List.length_pos_iff.mpr hne
    rw [decodeCalls]
    split
    · rename_i h' it' ctx' hcall
      have hs' := hdec _ _ _ _ _ _ hne hcall
      obtain ⟨hlen, hleft, hall⟩ := ih ctx' it' hs'.left_ne_nil
      -- what is left gets shorter
      have hless : it'.left.length < it.left.length := by
        have hb := congrArg List.length hs'.moved.block
        have ha := hs'.advanced (by decide)
        rw [List.length_append, List.length_append] at hb
        omega
      refine ⟨Nat.succ_le_succ hlen, ?_, List.forall_mem_cons.mpr ⟨hne, hall⟩⟩
      rw [List.length_cons]
      omega
    · exact ⟨Nat.succ_le_succ (Nat.zero_le _), hpos, List.forall_mem_cons.mpr
        ⟨hne, fun c hc => nomatch hc⟩⟩

theorem hpkDecHdrOn_steps (m : Machine) {it : HpkIter} (hne : it.left ≠ []) (ctx : HpkCtx)
    (h : HpkHdr) : Checked (fun p => Steps it p.1 p.2.2.1) (hpkDecHdrOn m ctx it h) :=
  hpkDecHdrWith_steps m.total hne ctx h

/-- On every machine and for every table: a call of `HPK_DecHdr` before the end of the block that
trips no assertion returns with a position in the block, behind the old one unless it fails, and
`hpk_done` exactly at the end. So `decode_hdr` makes at most one call for every slot and every byte,
none of them at the end. And `huff_decode` writes at most one character for five bits. -/
theorem hpack_decoding_progresses (m : Machine) (ctx : HpkCtx) :
    (∀ (it : HpkIter) (h : HpkHdr), it.left ≠ [] → hpkDecHdrOn m ctx it h ≠ .error .assert →
      ∃ r h' it' ctx', hpkDecHdrOn m ctx it h = .ok (r, h', it', ctx') ∧
        it'.done ++ it'.left = it.done ++ it.left ∧
        (r ≠ .err → it.done.length < it'.done.length ∧ (r = .done ↔ it'.left = []))) ∧
    (∀ (h : List HpkHdr) (vsb : Bytes), h.length = maxHdr →
      (decodeHdrCalls (hpkDecHdrOn m) ctx h vsb).length ≤ min maxHdr vsb.length ∧
      ∀ c ∈ decodeHdrCalls (hpkDecHdrOn m) ctx h vsb, c.left ≠ []) ∧
    ∀ (it : HpkIter) (n : Nat), (huffTrace it n).2 = huffDecode it n ∧
      (huffTrace it n).1.length ≤ 8 * n / 5 := by
  refine ⟨fun it h hne hassert => ?_, fun h vsb hlen => ?_, fun it n => ?_⟩
  · obtain ⟨⟨r, h', it', ctx'⟩, hcall, hs⟩ := (hpkDecHdrOn_steps m hne ctx h).exists_ok hassert
    refine ⟨r, h', it', ctx', hcall, hs.moved.block, fun hr => ⟨hs.advanced hr, ?_⟩⟩
    have hres : r = it'.result := hs.result hr
    rw [hres]
    exact result_eq_done
  · rw [decodeHdrCalls]
    split
    · exact ⟨Nat.zero_le _, fun c hc => nomatch hc⟩
    · rename_i hne
      have hstep : ∀ ctx it h h' it' ctx', it.left ≠ [] →
          hpkDecHdrOn m ctx it h = .ok (.more, h', it', ctx') → Steps it .more it' := by
        intro c it hd h' it' c' hl hcall
        have hs := hpkDecHdrOn_steps m hl c hd
        rw [hcall] at hs
        cases hs with
        | ok hs => exact hs
      obtain ⟨h1, h2, h3⟩ := decodeCalls_bounded hstep (h.drop (headersOf h).length) ctx ⟨[], vsb⟩
        (fun he => hne (List.isEmpty_iff.mpr he))
      refine ⟨le_min (h1.trans ?_) h2, h3⟩
      rw [List.length_drop, hlen]
      omega
  · exact ⟨huffTrace_snd it n, huffTrace_le it n⟩

/-! ## Header field representations -/

/-- The name of a literal: an index, or a text of its own. -/
inductive RepName where
  | index (i : UInt32)
  | text (b : Bytes)

/-- RFC 7541, sections 6.1 and 6.2. -/
inductive Rep where
  | indexed (i : UInt32)
  | literal (t : HpkIndexed) (name : RepName) (value : Bytes)

def Rep.form : Rep → HpkIndexed
  | .indexed _ => .idx
  | .literal t _ _ => t

/-- The entry of an index; 0 stands for none. -/
def entryAt (ctx : HpkCtx) (i : UInt32) : Option DynHdr :=
  if i = 0 then none
  else
    match hpkGetHdr ctx i with
    | none => none
    | some h => h.entry.toOption

/-- The name and the value that a representation stands for. -/
def Rep.denotes (ctx : HpkCtx) : Rep → Option DynHdr
  | .indexed i => entryAt ctx i
  | .literal _ (.index i) v => (entryAt ctx i).map fun e => ⟨e.key, v⟩
  | .literal _ (.text k) v => some ⟨k, v⟩

/-- What it does to the table. -/
def Rep.table (ctx : HpkCtx) (e : DynHdr) (rep : Rep) : Res HpkCtx :=
  if rep.form = .inc then pushEntry ctx e else .ok ctx

/-- The representation that a first byte announces; the bytes 20 to 3f announce a size update. -/
def leadForm (b : UInt8) : Option HpkIndexed :=
  if 0x80 ≤ b then some .idx
  else if 0x40 ≤ b then some .inc
  else if 0x20 ≤ b then none
  else if 0x10 ≤ b then some .never
  else some .not

def formAt (it : HpkIter) : Option HpkIndexed := it.left.head?.bind leadForm

/-- The text `b` at the position. -/
def ReadsText (it : HpkIter) (b : Bytes) (it' : HpkIter) : Prop :=
  ∃ huff, ∀ t0, strDecode it t0 = .ok (it'.result, .of b huff, it')

/-- The representation that stands between two positions. -/
inductive Rep.Reads (it : HpkIter) : Rep → HpkIter → Prop where
  | indexed {i : UInt32} {it' : HpkIter} (hf : formAt it = some .idx)
      (hi : numDecode it 7 = .ok (it'.result, i, it')) : Reads it (.indexed i) it'
  | index {t : HpkIndexed} {i : UInt32} {v : Bytes} {it1 it' : HpkIter} (hf : formAt it = some t)
      (ht : t ≠ .idx) (hi : numDecode it t.pref = .ok (.more, i, it1)) (h0 : i ≠ 0)
      (hv : ReadsText it1 v it') : Reads it (.literal t (.index i) v) it'
  | text {t : HpkIndexed} {k v : Bytes} {it1 it2 it' : HpkIter} (hf : formAt it = some t)
      (ht : t ≠ .idx) (hi : numDecode it t.pref = .ok (.more, 0, it1)) (hk : ReadsText it1 k it2)
      (hmore : it2.left ≠ []) (hv : ReadsText it2 v it') : Reads it (.literal t (.text k) v) it'

/-- A complete header field: a representation that stands for a name and a value. -/
def FieldStep (s : HpkCtx × HpkIter) (x : HpkIndexed × DynHdr) (s' : HpkCtx × HpkIter) : Prop :=
  ∃ rep : Rep, rep.Reads s.2 s'.2 ∧ rep.form = x.1 ∧ rep.denotes s.1 = some x.2 ∧
    rep.table s.1 x.2 = .ok s'.1

/-! ## `HPK_DecHdr` on a representation -/

/-- The branch that a first byte takes. -/
def decForm (ctx : HpkCtx) (it : HpkIter) (h : HpkHdr) :
    Option HpkIndexed → Res (HpkResult × HpkHdr × HpkIter × HpkCtx)
  | none => decResize ctx it h
  | some .idx => decIdx ctx it h
  | some t => decLit ctx it { h with t := t } t.pref (t = .inc)

theorem leadForm_cases : ∀ b : UInt8,
    (b &&& 128 ≠ 0 ∧ leadForm b = some .idx) ∨
    (b &&& 128 = 0 ∧ b >>> 6 = 1 ∧ leadForm b = some .inc) ∨
    (b &&& 128 = 0 ∧ b >>> 6 ≠ 1 ∧ b >>> 4 = 0 ∧ leadForm b = some .not) ∨
    (b &&& 128 = 0 ∧ b >>> 6 ≠ 1 ∧ b >>> 4 ≠ 0 ∧ b >>> 4 = 1 ∧ leadForm b = some .never) ∨
    (b &&& 128 = 0 ∧ b >>> 6 ≠ 1 ∧ b >>> 4 ≠ 0 ∧ b >>> 4 ≠ 1 ∧ b >>> 5 = 1 ∧
      leadForm b = none) := by
  decide +kernel

theorem hpkDecHdr_eq_form {it : HpkIter} (hne : it.left ≠ []) (ctx : HpkCtx) (h : HpkHdr) :
    hpkDecHdr ctx it h = decForm ctx it h (formAt it) := by
  obtain ⟨done, left⟩ := it
  obtain ⟨b, r, rfl⟩ := List.exists_cons_of_ne_nil hne
  simp only [hpkDecHdr, formAt, List.head?_cons, Option.bind_some]
  rcases leadForm_cases b with ⟨h1, hf⟩ | ⟨h1, h2, hf⟩ | ⟨h1, h2, h3, hf⟩ |
    ⟨h1, h2, h3, h4, hf⟩ | ⟨h1, h2, h3, h4, h5, hf⟩
  · rw [if_pos h1, hf, decForm]
  · rw [if_neg (not_not.mpr h1), if_pos h2, hf]
    rfl
  · rw [if_neg (not_not.mpr h1), if_neg h2, if_pos h3, hf]
    rfl
  · rw [if_neg (not_not.mpr h1), if_neg h2, if_neg h3, if_pos h4, hf]
    rfl
  · rw [if_neg (not_not.mpr h1), if_neg h2, if_neg h3, if_neg h4, if_pos h5, hf, decForm]

theorem formAt_ne_nil {it : HpkIter} {t : HpkIndexed} (h : formAt it = some t) : it.left ≠ [] := by
  intro he
  rw [formAt, he] at h
  cases h

theorem formAt_ne_unset {it : HpkIter} {t : HpkIndexed} (h : formAt it = some t) : t ≠ .unset := by
  obtain ⟨b, -, hb⟩ := Option.bind_eq_some_iff.mp h
  have hall : ∀ b : UInt8, leadForm b ≠ some .unset := by decide +kernel
  rintro rfl
  exact hall b hb

theorem decForm_literal {t : HpkIndexed} (ht : t ≠ .idx) (ctx : HpkCtx) (it : HpkIter)
    (h : HpkHdr) :
    decForm ctx it h (some t) = decLit ctx it { h with t := t } t.pref (t = .inc) := by
  cases t with
  | idx => exact absurd rfl ht
  | unset | inc | not | never => rfl

/-- Some machine, for which the positions are known. -/
def plainMachine : Machine := ⟨fun _ _ => 0, fun _ _ => 0⟩

theorem numDecode_steps {it it' : HpkIter} {pfx : Nat} {r : HpkResult} {n : UInt32}
    (hne : it.left ≠ []) (h1 : 1 ≤ pfx) (h8 : pfx ≤ 8)
    (h : numDecode it pfx = .ok (r, n, it')) : Steps it r it' := by
  have hs : Checked (fun p => Steps it p.1 p.2.2) (numDecodeOn plainMachine it pfx) :=
    plainMachine.total.num hne h1 h8
  rw [(numDecodeOn_upTo plainMachine it pfx).eq_ok h] at hs
  cases hs with
  | ok hs => exact hs

/-- A text that is read does not depend on what was in the slot. -/
theorem strDecode_reads {it it' : HpkIter} {t t' : HpkTxt} {r : HpkResult}
    (h : strDecode it t = .ok (r, t', it')) (hr : r ≠ .err) :
    ∃ b huff, t' = .of b huff ∧ r = it'.result ∧
      ∀ t0, strDecode it t0 = .ok (it'.result, .of b huff, it') := by
  obtain ⟨hc, h⟩ := check_bind_eq_ok.mp h
  obtain ⟨⟨ret, num, it1⟩, hnum, h⟩ := bind_eq_ok.mp h
  simp only at h
  split at h
  · cases h
    exact absurd rfl hr
  · rename_i hret
    obtain ⟨hc1, h⟩ := check_bind_eq_ok.mp h
    split at h
    · cases h
      exact absurd rfl hr
    · rename_i hlen
      split at h
      · rename_i hhuff
        obtain ⟨⟨str, it2⟩, hdec, h⟩ := bind_eq_ok.mp h
        simp only at h
        split at h
        · cases h
          exact absurd rfl hr
        · rename_i hstr
          cases h
          refine ⟨str, true, rfl, rfl, fun t0 => ?_⟩
          simp only [strDecode, hc, check_true, ok_bind, hnum, if_neg hret, hc1, if_neg hlen,
            if_pos hhuff, hdec, if_neg hstr]
          rfl
      · rename_i hhuff
        cases h
        refine ⟨_, false, rfl, rfl, fun t0 => ?_⟩
        simp only [strDecode, hc, check_true, ok_bind, hnum, if_neg hret, hc1, if_neg hlen,
          if_neg hhuff]
        rfl

theorem entryAt_cases (ctx : HpkCtx) {i : UInt32} (h0 : i ≠ 0) :
    (entryAt ctx i = none ∧ tblGetKey ctx i = none) ∨
    ∃ e, entryAt ctx i = some e ∧ tblGetKey ctx i = some (.of e.key) ∧
      tblGetValue ctx i = some (.of e.value) := by
  cases hg : hpkGetHdr ctx i with
  | none =>
    refine .inl ⟨by rw [entryAt, if_neg h0, hg], ?_⟩
    unfold hpkGetHdr at hg
    unfold tblGetKey tblGetField
    split at hg
    · rename_i hb
      exact if_pos hb
    · rename_i hb
      rw [if_neg hb]
      split at hg
      · rename_i hs
        rw [if_pos hs, hg]
        rfl
      · rename_i hs
        rw [if_neg hs, Option.map_eq_none_iff.mp hg]
        rfl
  | some ih =>
    right
    obtain ⟨e, hk, hv⟩ := hpkGetHdr_live hg h0
    have hkey := tblGetField_of_hdr hg true
    have hval := tblGetField_of_hdr hg false
    rw [if_pos rfl, hk] at hkey
    rw [if_neg (by decide), hv] at hval
    refine ⟨e, ?_, hkey, hval⟩
    rw [entryAt, if_neg h0, hg]
    simp only [HpkHdr.entry, hk, hv, deref_of, ok_bind]
    rfl

theorem pushIf_eq_table {h : HpkHdr} {e : DynHdr} (he : h.entry = .ok e) (ctx : HpkCtx)
    (rep : Rep) : pushIf (rep.form = .inc) ctx h = rep.table ctx e := by
  rw [pushIf, Rep.table, pushHeader_entry he]
  by_cases hi : rep.form = .inc
  · rw [if_pos hi, if_pos (decide_eq_true hi)]
  · rw [if_neg hi, if_neg (by simpa using hi)]

/-- A complete header field is decoded, into any slot. -/
theorem FieldStep.decodes {ctx ctx' : HpkCtx} {it it' : HpkIter} {x : HpkIndexed × DynHdr}
    (h : FieldStep (ctx, it) x (ctx', it')) (slot : HpkHdr) :
    ∃ out, hpkDecHdr ctx it slot = .ok (it'.result, out, it', ctx') ∧ out.t = x.1 ∧
      out.entry = .ok x.2 := by
  obtain ⟨t, e⟩ := x
  obtain ⟨rep, hread, hform, hden, htab⟩ := h
  simp only at hread hform hden htab
  cases hread with
  | @indexed i it' hf hi =>
    rw [hpkDecHdr_eq_form (formAt_ne_nil hf), hf, decForm]
    have h0 : i ≠ 0 := by
      rintro rfl
      cases hden
    rcases entryAt_cases ctx h0 with ⟨hno, -⟩ | ⟨e', he, hk, hv⟩
    · rw [Rep.denotes, hno] at hden
      cases hden
    · rw [Rep.denotes, he] at hden
      cases hden
      cases htab
      refine ⟨_, by simp only [decIdx, hi, ok_bind, if_neg (result_ne_err it'), if_neg h0, hk, hv,
        txtcpy_of]; rfl, hform, by simp [HpkHdr.entry]⟩
  | @index t' i v it1 it' hf ht hi h0 hv =>
    obtain rfl : t' = t := hform
    rw [hpkDecHdr_eq_form (formAt_ne_nil hf), hf, decForm_literal ht]
    obtain ⟨huff, hv⟩ := hv
    rcases entryAt_cases ctx h0 with ⟨hno, -⟩ | ⟨e', he, hk, -⟩
    · rw [Rep.denotes, hno] at hden
      cases hden
    · rw [Rep.denotes, he] at hden
      cases hden
      have hent : HpkHdr.entry ⟨.of e'.key slot.key.huff, .of v huff, t', i⟩ = .ok ⟨e'.key, v⟩ := by
        simp [HpkHdr.entry]
      have hpush := (pushIf_eq_table hent ctx (.literal t' (.index i) v)).trans htab
      rw [Rep.form] at hpush
      refine ⟨⟨.of e'.key slot.key.huff, .of v huff, t', i⟩, ?_, rfl, hent⟩
      simp [decLit, hi, decName, h0, hk, txtcpy_of, hv, hpush]
  | @text t' k v it1 it2 it' hf ht hi hk hmore hv =>
    obtain rfl : t' = t := hform
    rw [hpkDecHdr_eq_form (formAt_ne_nil hf), hf, decForm_literal ht]
    obtain ⟨khuff, hk⟩ := hk
    obtain ⟨huff, hv⟩ := hv
    cases hden
    have hent : HpkHdr.entry ⟨.of k khuff, .of v huff, t', 0⟩ = .ok ⟨k, v⟩ := by
      simp [HpkHdr.entry]
    have hpush := (pushIf_eq_table hent ctx (.literal t' (.text k) v)).trans htab
    rw [Rep.form] at hpush
    have hres : it2.result = .more := result_more it2.done hmore
    refine ⟨⟨.of k khuff, .of v huff, t', 0⟩, ?_, rfl, hent⟩
    simp [decLit, hi, decName, hk, hres, hv, hpush]

/-- There is at most one header field at a position. -/
theorem FieldStep.unique {s s1 s2 : HpkCtx × HpkIter} {x y : HpkIndexed × DynHdr}
    (h1 : FieldStep s x s1) (h2 : FieldStep s y s2) : x = y ∧ s1 = s2 := by
  obtain ⟨out1, hd1, ht1, he1⟩ := h1.decodes {}
  obtain ⟨out2, hd2, ht2, he2⟩ := h2.decodes {}
  have heq := hd1.symm.trans hd2
  simp only [Except.ok.injEq, Prod.mk.injEq] at heq
  obtain ⟨-, rfl, hit, hctx⟩ := heq
  exact ⟨Prod.ext (ht1.symm.trans ht2) (Except.ok.inj (he1.symm.trans he2)), Prod.ext hctx hit⟩

/-- What a call of `HPK_DecHdr` that returns has done. -/
inductive DecCase (ctx : HpkCtx) (it : HpkIter) (h : HpkHdr) :
    HpkResult × HpkHdr × HpkIter × HpkCtx → Prop where
  | field {x : HpkIndexed × DynHdr} {out : HpkHdr} {it' : HpkIter} {ctx' : HpkCtx}
      (hs : FieldStep (ctx, it) x (ctx', it')) (ht : out.t = x.1) (he : out.entry = .ok x.2) :
      DecCase ctx it h (it'.result, out, it', ctx')
  | resized {n : UInt32} {it' : HpkIter} {ctx' : HpkCtx} (hf : formAt it = none)
      (hn : numDecode it 5 = .ok (.done, n, it')) (hr : hpkResizeTbl ctx n = .ok ctx') :
      DecCase ctx it h (.done, h, it', ctx')
  | refused {it' : HpkIter} (hf : formAt it = none) : DecCase ctx it h (.err, h, it', ctx)
  | broken {out : HpkHdr} {it' : HpkIter} (hf : formAt it ≠ none) (ht : out.t ≠ .unset) :
      DecCase ctx it h (.err, out, it', ctx)

theorem dropKey_inv {h : HpkHdr} {it : HpkIter} {ctx : HpkCtx}
    {p : HpkResult × HpkHdr × HpkIter × HpkCtx} (hp : dropKey h it ctx = .ok p) :
    ∃ key, p = (.err, { h with key := key }, it, ctx) := by
  obtain ⟨q, -, hp⟩ := bind_eq_ok.mp hp
  cases hp
  exact ⟨_, rfl⟩

theorem decIdx_cases {ctx : HpkCtx} {it : HpkIter} {h : HpkHdr}
    {p : HpkResult × HpkHdr × HpkIter × HpkCtx} (hf : formAt it = some .idx)
    (hp : decIdx ctx it h = .ok p) : DecCase ctx it h p := by
  have hform : formAt it ≠ none := by simp [hf]
  obtain ⟨⟨r, i, it1⟩, hnum, hp⟩ := bind_eq_ok.mp hp
  simp only at hp
  split at hp
  · cases hp
    exact .broken hform (by simp)
  · rename_i hr
    have hres : r = it1.result :=
      (numDecode_steps (formAt_ne_nil hf) (by decide) (by decide) hnum).result hr
    split at hp
    · cases hp
      exact .broken hform (by simp)
    · rename_i h0
      rcases entryAt_cases ctx h0 with ⟨-, hk⟩ | ⟨e, he, hk, hv⟩
      · rw [hk] at hp
        cases hp
        exact .broken hform (by simp)
      · simp only [hk, hv, txtcpy_of, ok_bind] at hp
        cases hp
        refine .field (x := (.idx, e)) ⟨.indexed i, .indexed hf ?_, rfl, he, rfl⟩ rfl ?_
        · rw [hnum, hres]
        · simp [HpkHdr.entry]

/-- The name of a literal. -/
theorem decName_cases {ctx : HpkCtx} {it : HpkIter} {h : HpkHdr} {r : HpkResult} {h' : HpkHdr}
    {it' : HpkIter} {ctx' : HpkCtx} (hp : decName ctx it h = .ok (r, h', it', ctx')) :
    h'.t = h.t ∧ h'.i = h.i ∧ ctx' = ctx ∧ (r = .err ∨ r = .more ∧
      ((h.i ≠ 0 ∧ it' = it ∧ ∃ e huff, entryAt ctx h.i = some e ∧ h'.key = .of e.key huff) ∨
      (h.i = 0 ∧ it'.left ≠ [] ∧ ∃ k huff, ReadsText it k it' ∧ h'.key = .of k huff))) := by
  unfold decName at hp
  split at hp
  · rename_i h0
    rcases entryAt_cases ctx h0 with ⟨-, hk⟩ | ⟨e, he, hk, -⟩
    · rw [hk] at hp
      cases hp
      exact ⟨rfl, rfl, rfl, .inl rfl⟩
    · simp only [hk, txtcpy_of, ok_bind] at hp
      cases hp
      exact ⟨rfl, rfl, rfl, .inr ⟨rfl, .inl ⟨h0, rfl, e, _, he, rfl⟩⟩⟩
  · rename_i h0
    obtain ⟨⟨r1, key, it1⟩, hstr, hp⟩ := bind_eq_ok.mp hp
    simp only at hp
    split at hp
    · obtain ⟨key', hp⟩ := dropKey_inv hp
      cases hp
      exact ⟨rfl, rfl, rfl, .inl rfl⟩
    · rename_i hmore
      obtain rfl : r1 = .more := not_not.mp hmore
      cases hp
      obtain ⟨k, huff, rfl, hres, hall⟩ := strDecode_reads hstr (by decide)
      refine ⟨rfl, rfl, rfl, .inr ⟨rfl, .inr ⟨not_not.mp h0, ?_, k, huff, ⟨huff, hall⟩, rfl⟩⟩⟩
      intro he
      rw [result_eq_done.mpr he] at hres
      cases hres

theorem decLit_cases {ctx : HpkCtx} {it : HpkIter} {h : HpkHdr} {t : HpkIndexed}
    {p : HpkResult × HpkHdr × HpkIter × HpkCtx} (hf : formAt it = some t) (ht : t ≠ .idx)
    (hp : decLit ctx it { h with t := t } t.pref (t = .inc) = .ok p) : DecCase ctx it h p := by
  have hform : formAt it ≠ none := by simp [hf]
  have hset := formAt_ne_unset hf
  obtain ⟨⟨r, i, it1⟩, hnum, hp⟩ := bind_eq_ok.mp hp
  simp only at hp
  split at hp
  · cases hp
    exact .broken hform hset
  · rename_i hmore
    obtain rfl : r = .more := not_not.mp hmore
    obtain ⟨⟨r2, h2, it2, ctx2⟩, hname, hp⟩ := bind_eq_ok.mp hp
    obtain ⟨ht2, hi2, rfl, hcase⟩ := decName_cases hname
    simp only at ht2 hi2 hp
    rcases hcase with rfl | ⟨rfl, hcase⟩
    · rw [if_pos rfl] at hp
      cases hp
      exact .broken hform (by rw [ht2]; exact hset)
    · rw [if_neg (by simp)] at hp
      obtain ⟨⟨r3, value, it3⟩, hstr, hp⟩ := bind_eq_ok.mp hp
      simp only at hp
      split at hp
      · obtain ⟨key, hp⟩ := dropKey_inv hp
        cases hp
        exact .broken hform (by rw [ht2]; exact hset)
      · rename_i hr3
        obtain ⟨ctx3, hpush, hp⟩ := bind_eq_ok.mp hp
        cases hp
        obtain ⟨v, huff, rfl, hres, hall⟩ := strDecode_reads hstr hr3
        have hlit : ∀ (name : RepName) (k : Bytes) (khuff : Bool), h2.key = .of k khuff →
            (Rep.literal t name v).denotes ctx2 = some ⟨k, v⟩ →
            (Rep.literal t name v).Reads it it3 →
            DecCase ctx2 it h (it3.result, { h2 with value := .of v huff }, it3, ctx3) := by
          intro name k khuff hkey hden hread
          have hent : HpkHdr.entry { h2 with value := .of v huff } = .ok ⟨k, v⟩ := by
            simp [HpkHdr.entry, hkey]
          exact .field (x := (t, ⟨k, v⟩)) ⟨.literal t name v, hread, rfl, hden,
            (pushIf_eq_table hent ctx2 (.literal t name v)).symm.trans hpush⟩ ht2 hent
        rcases hcase with ⟨h0, rfl, e, khuff, he, hkey⟩ | ⟨h0, hne, k, khuff, hk, hkey⟩
        · refine hlit (.index i) e.key khuff hkey ?_ (.index hf ht hnum h0 ⟨huff, hall⟩)
          rw [Rep.denotes, he]
          rfl
        · obtain rfl : i = 0 := h0
          exact hlit (.text k) k khuff hkey rfl (.text hf ht hnum hk hne ⟨huff, hall⟩)

theorem decResize_cases {ctx : HpkCtx} {it : HpkIter} {h : HpkHdr}
    {p : HpkResult × HpkHdr × HpkIter × HpkCtx} (hf : formAt it = none)
    (hp : decResize ctx it h = .ok p) : DecCase ctx it h p := by
  obtain ⟨⟨r, n, it1⟩, hnum, hp⟩ := bind_eq_ok.mp hp
  simp only at hp
  split at hp
  · cases hp
    exact .refused hf
  · rename_i hdone
    obtain rfl : r = .done := not_not.mp hdone
    obtain ⟨ctx1, hr, hp⟩ := bind_eq_ok.mp hp
    cases hp
    exact .resized hf hnum hr

theorem hpkDecHdr_cases {ctx : HpkCtx} {it : HpkIter} {h : HpkHdr} (hne : it.left ≠ [])
    {p : HpkResult × HpkHdr × HpkIter × HpkCtx} (hp : hpkDecHdr ctx it h = .ok p) :
    DecCase ctx it h p := by
  rw [hpkDecHdr_eq_form hne] at hp
  cases hf : formAt it with
  | none =>
    rw [hf] at hp
    exact decResize_cases hf hp
  | some t =>
    rw [hf] at hp
    by_cases ht : t = .idx
    · subst ht
      exact decIdx_cases hf hp
    · rw [decForm_literal ht] at hp
      exact decLit_cases hf ht hp

/-! ## What a block leaves behind -/

/-- A slot that has a complete header. -/
def Holding (x : HpkIndexed × DynHdr) (h : HpkHdr) : Prop := h.t = x.1 ∧ h.entry = .ok x.2

/-- A size update at the position, which ends the block. -/
def Resized (s : HpkCtx × HpkIter) (ctx' : HpkCtx) : Prop :=
  ∃ n it', formAt s.2 = none ∧ numDecode s.2 5 = .ok (.done, n, it') ∧
    hpkResizeTbl s.1 n = .ok ctx'

/-- The slots behind the headers `outs`, and the table, when the loop ends at `s` with `k` slots
left. -/
inductive BlockEnd (outs : List HpkHdr) (s : HpkCtx × HpkIter) :
    Nat → List HpkHdr → HpkCtx → Prop where
  | full : BlockEnd outs s 0 outs s.1
  | ended {k : Nat} (hl : s.2.left = []) : BlockEnd outs s (k + 1) (outs ++ noHeaders (k + 1)) s.1
  | update {k : Nat} {ctx' : HpkCtx} (hne : s.2.left ≠ []) (hf : formAt s.2 = none)
      (hc : ctx' = s.1 ∨ Resized s ctx') :
      BlockEnd outs s (k + 1) (outs ++ noHeaders (k + 1)) ctx'
  | broken {k : Nat} {bad : HpkHdr} (hf : formAt s.2 ≠ none) (hno : ∀ x s', ¬ FieldStep s x s')
      (ht : bad.t ≠ .unset) : BlockEnd outs s (k + 1) (outs ++ bad :: noHeaders k) s.1

theorem BlockEnd.cons {outs new : List HpkHdr} {s : HpkCtx × HpkIter} {k : Nat} {ctx' : HpkCtx}
    (h : BlockEnd outs s k new ctx') (out : HpkHdr) :
    BlockEnd (out :: outs) s k (out :: new) ctx' := by
  cases h with
  | full => exact .full
  | ended hl => exact .ended hl
  | update hne hf hc => exact .update hne hf hc
  | broken hf hno ht => exact .broken hf hno ht

/-- The loop on fresh slots. -/
theorem decodeLoop_end : ∀ (k : Nat) (r : HpkResult) (ctx : HpkCtx) (it : HpkIter)
    (p : HpkResult × List HpkHdr × Nat × HpkCtx), it.left ≠ [] →
    decodeLoop r ctx it (noHeaders k) = .ok p →
    ∃ l s outs j, Path FieldStep (ctx, it) l s ∧ l.length + j = k ∧ List.Forall₂ Holding l outs ∧
      BlockEnd outs s j p.2.1 p.2.2.2 := by
  intro k
  induction k with
  | zero =>
    intro r ctx it p _ hp
    cases hp
    exact ⟨[], (ctx, it), [], 0, .nil, rfl, .nil, .full⟩
  | succ k ih =>
    intro r ctx it p hne hp
    rw [noHeaders_succ] at hp
    obtain ⟨q, hdec, hp⟩ := bind_eq_ok.mp hp
    cases hpkDecHdr_cases hne hdec with
    | @field x out it' ctx' hs ht he =>
      simp only at hp
      cases hres : it'.result with
      | err => exact absurd hres (result_ne_err it')
      | done =>
        rw [hres] at hp
        cases hp
        have hleft := result_eq_done.mp hres
        refine ⟨[x], (ctx', it'), [out], k, .cons hs .nil, Nat.add_comm 1 k,
          .cons ⟨ht, he⟩ .nil, ?_⟩
        cases k with
        | zero => exact .full
        | succ k => exact .ended hleft
      | more =>
        rw [hres] at hp
        obtain ⟨q, hloop, hp⟩ := bind_eq_ok.mp hp
        cases hp
        have hleft : it'.left ≠ [] := fun he => by
          rw [result_eq_done.mpr he] at hres
          cases hres
        obtain ⟨l, s, outs, j, hpath, hlen, hall, hend⟩ := ih _ _ _ _ hleft hloop
        exact ⟨x :: l, s, out :: outs, j, .cons hs hpath, by rw [List.length_cons]; omega,
          .cons ⟨ht, he⟩ hall, hend.cons out⟩
    | resized hf hn hr =>
      cases hp
      exact ⟨[], (ctx, it), [], k + 1, .nil, Nat.zero_add _, .nil,
        .update hne hf (.inr ⟨_, _, hf, hn, hr⟩)⟩
    | refused hf =>
      cases hp
      exact ⟨[], (ctx, it), [], k + 1, .nil, Nat.zero_add _, .nil, .update hne hf (.inl rfl)⟩
    | broken hf ht =>
      cases hp
      refine ⟨[], (ctx, it), [], k + 1, .nil, Nat.zero_add _, .nil, .broken hf ?_ ht⟩
      rintro x ⟨ctx', it'⟩ hs
      obtain ⟨out, hd, -⟩ := hs.decodes {}
      have heq := hdec.symm.trans hd
      simp only [Except.ok.injEq, Prod.mk.injEq] at heq
      exact result_ne_err it' heq.1.symm

/-- The headers are those of complete representations in order, a slot that is unset follows them,
and the table is what these representations have made of it. -/
structure Whole (ctx : HpkCtx) (block : Bytes) (h : List HpkHdr) (ctx' : HpkCtx) : Prop where
  slots : h.length = maxHdr ∧ (headersOf h).length < maxHdr
  fields : ∃ l s, Path FieldStep (ctx, ⟨[], block⟩) l s ∧ List.Forall₂ Holding l (headersOf h) ∧
    (ctx' = s.1 ∨ Resized s ctx')

theorem FieldStep.form {s s' : HpkCtx × HpkIter} {x : HpkIndexed × DynHdr}
    (h : FieldStep s x s') : formAt s.2 = some x.1 := by
  obtain ⟨rep, hread, hform, -⟩ := h
  rw [← hform]
  cases hread with
  | indexed hf _ => exact hf
  | index hf _ _ _ _ => exact hf
  | text hf _ _ _ _ _ => exact hf

theorem holding_set {s s' : HpkCtx × HpkIter} {l : List (HpkIndexed × DynHdr)}
    {outs : List HpkHdr} (p : Path FieldStep s l s') (h : List.Forall₂ Holding l outs) :
    ∀ o ∈ outs, o.t ≠ .unset := by
  induction p generalizing outs with
  | nil =>
    cases h
    exact fun o ho => nomatch ho
  | cons hs _ ih =>
    cases h with
    | cons hx hl =>
      refine List.forall_mem_cons.mpr ⟨?_, ih hl⟩
      rw [hx.1]
      exact formAt_ne_unset hs.form

theorem headersOf_set {outs : List HpkHdr} (h : ∀ o ∈ outs, o.t ≠ .unset) (r : List HpkHdr) :
    headersOf (outs ++ r) = outs ++ headersOf r :=
  List.takeWhile_append_of_pos fun o ho => by simpa using h o ho

theorem headersOf_noHeaders (k : Nat) : headersOf (noHeaders k) = [] :=
  headersOf_append [] k (by simp)

theorem headersOf_bad {bad : HpkHdr} (h : bad.t ≠ .unset) (k : Nat) :
    headersOf (bad :: noHeaders k) = [bad] := by
  have hset : ∀ o ∈ [bad], o.t ≠ .unset := by simpa using h
  have := headersOf_set hset (noHeaders k)
  rwa [headersOf_noHeaders] at this

/-- A size update stands at the position. -/
def UpdateAt (it : HpkIter) : Prop := ∃ b r, it.left = b :: r ∧ 0x20 ≤ b ∧ b < 0x40

theorem updateAt_iff {it : HpkIter} : UpdateAt it ↔ it.left ≠ [] ∧ formAt it = none := by
  have hlead : ∀ b : UInt8, leadForm b = none ↔ 0x20 ≤ b ∧ b < 0x40 := by decide +kernel
  constructor
  · rintro ⟨b, r, hl, hb⟩
    refine ⟨by simp [hl], ?_⟩
    rw [formAt, hl, List.head?_cons, Option.bind_some]
    exact (hlead b).mpr hb
  · rintro ⟨hne, hf⟩
    obtain ⟨b, r, hl⟩ := List.exists_cons_of_ne_nil hne
    rw [formAt, hl, List.head?_cons, Option.bind_some] at hf
    exact ⟨b, r, hl, (hlead b).mp hf⟩

/-- The fields of the block reach its end, or a size update, before the slots are used up. -/
def Undisturbed (ctx : HpkCtx) (block : Bytes) : Prop :=
  ∃ l s, Path FieldStep (ctx, ⟨[], block⟩) l s ∧ l.length < maxHdr ∧
    (s.2.left = [] ∨ UpdateAt s.2)

theorem formAt_of_stop {it : HpkIter} (h : it.left = [] ∨ UpdateAt it) : formAt it = none := by
  rcases h with h | h
  · rw [formAt, h]
    rfl
  · exact (updateAt_iff.mp h).2

/-- A path that stops cannot be continued by a longer one. -/
theorem length_le_of_stop {s s1 s2 : HpkCtx × HpkIter} {l l' : List (HpkIndexed × DynHdr)}
    (p : Path FieldStep s l s1) (hno : ∀ x s', ¬ FieldStep s1 x s') (q : Path FieldStep s l' s2) :
    l'.length ≤ l.length := by
  by_contra hlt
  obtain ⟨k, rfl, hk⟩ := p.split q (fun _ _ _ _ _ => FieldStep.unique) (Nat.le_of_not_le hlt)
  cases hk with
  | nil => simp at hlt
  | cons h _ => exact hno _ _ h

theorem not_fieldStep {s : HpkCtx × HpkIter} (h : formAt s.2 = none) :
    ∀ x s', ¬ FieldStep s x s' := by
  intro x s' hs
  rw [hs.form] at h
  cases h

theorem whole_iff_of_end {ctx ctx' : HpkCtx} {block : Bytes} {l : List (HpkIndexed × DynHdr)}
    {s : HpkCtx × HpkIter} {outs h : List HpkHdr} {j : Nat}
    (hpath : Path FieldStep (ctx, ⟨[], block⟩) l s) (hlen : l.length + j = maxHdr)
    (hall : List.Forall₂ Holding l outs) (hend : BlockEnd outs s j h ctx') :
    Whole ctx block h ctx' ↔ Undisturbed ctx block := by
  have hset := holding_set hpath hall
  have houts := hall.length_eq
  have hno : ∀ k, (noHeaders k).length = k := fun k => List.length_replicate
  cases hend with
  | full =>
    have hh : headersOf outs = outs := by simpa [headersOf] using headersOf_set hset []
    refine iff_of_false (fun hw => ?_) ?_
    · have := hw.slots.2
      rw [hh] at this
      omega
    · rintro ⟨l', s', hp, hl, hstop⟩
      have := length_le_of_stop hp (not_fieldStep (formAt_of_stop hstop)) hpath
      omega
  | @ended k hl =>
    refine iff_of_true ⟨⟨?_, ?_⟩, l, s, hpath, ?_, .inl rfl⟩ ⟨l, s, hpath, by omega, .inl hl⟩
    · rw [List.length_append, hno]
      omega
    · rw [headersOf_append outs _ hset]
      omega
    · rwa [headersOf_append outs _ hset]
  | @update k _ hne hf hc =>
    refine iff_of_true ⟨⟨?_, ?_⟩, l, s, hpath, ?_, hc⟩
      ⟨l, s, hpath, by omega, .inr (updateAt_iff.mpr ⟨hne, hf⟩)⟩
    · rw [List.length_append, hno]
      omega
    · rw [headersOf_append outs _ hset]
      omega
    · rwa [headersOf_append outs _ hset]
  | @broken k bad hf hstuck ht =>
    refine iff_of_false (fun hw => ?_) ?_
    · -- one slot more is set than there are fields
      obtain ⟨l', s', hp, hall', -⟩ := hw.fields
      have hle := length_le_of_stop hpath hstuck hp
      have hlen' := hall'.length_eq
      rw [headersOf_set hset, headersOf_bad ht, List.length_append, List.length_singleton]
        at hlen'
      omega
    · rintro ⟨l', s', hp, -, hstop⟩
      have hstop' := not_fieldStep (formAt_of_stop hstop)
      obtain ⟨k', rfl, hk⟩ := hp.split hpath (fun _ _ _ _ _ => FieldStep.unique)
        (length_le_of_stop hpath hstuck hp)
      cases hk with
      | nil => exact hf (formAt_of_stop hstop)
      | cons hs _ => exact hstop' _ _ hs

/-- For every block and every table: when `decode_hdr` returns in `non_fatal` mode, the slots hold
complete headers and an unset slot behind them exactly if the header fields reach the end of the
block or a size update, and are fewer than the slots. -/
theorem failed_block_whole_iff {ctx ctx' : HpkCtx} {block : Bytes} {h : List HpkHdr}
    (hr : decodeHdr false ctx (noHeaders maxHdr) block = .ok (h, ctx')) :
    Whole ctx block h ctx' ↔ Undisturbed ctx block := by
  unfold decodeHdr at hr
  split at hr
  · rename_i he
    obtain rfl := List.isEmpty_iff.mp he
    cases hr
    exact whole_iff_of_end (l := []) (j := maxHdr) .nil (Nat.zero_add _) .nil (.ended rfl)
  · rename_i hne
    obtain ⟨⟨r, new, n, ctx1⟩, hloop, hr⟩ := bind_eq_ok.mp hr
    rw [headersOf_noHeaders] at hloop
    obtain ⟨-, hr⟩ := fatalIf_bind_eq_ok.mp hr
    cases hr
    obtain ⟨l, s, outs, j, hpath, hlen, hall, hend⟩ :=
      decodeLoop_end maxHdr _ _ _ _ (fun he => hne (List.isEmpty_iff.mpr he)) hloop
    exact whole_iff_of_end hpath hlen hall hend

/-- `82 20 82`: the size update is refused, and what was decoded before it stays. -/
theorem failed_block_whole_update : ∃ h ctx',
    decodeHdr false (hpkNewCtx 4096) (noHeaders maxHdr) [0x82, 0x20, 0x82] = .ok (h, ctx') ∧
      Whole (hpkNewCtx 4096) [0x82, 0x20, 0x82] h ctx' := by
  refine ⟨_, _, rfl, (failed_block_whole_iff rfl).mpr ?_⟩
  have hfield : FieldStep (hpkNewCtx 4096, ⟨[], [0x82, 0x20, 0x82]⟩)
      (.idx, ⟨ascii ":method", ascii "GET"⟩) (hpkNewCtx 4096, ⟨[0x82], [0x20, 0x82]⟩) :=
    ⟨.indexed 2, .indexed rfl rfl, rfl, rfl, rfl⟩
  exact ⟨_, _, .cons hfield .nil, by decide, .inr ⟨0x20, [0x82], rfl, by decide, by decide⟩⟩

/-- `82 80`: the index 0 of the second field is refused, but its slot counts as a header that has no
name and no value. -/
theorem failed_block_half_decoded : ∃ h,
    decodeHdr false (hpkNewCtx 4096) (noHeaders maxHdr) [0x82, 0x80] = .ok (h, hpkNewCtx 4096) ∧
      (headersOf h).map (fun s => (s.t, s.key.ptr, s.value.ptr)) =
        [(.idx, .mem (ascii ":method"), .mem (ascii "GET")), (.idx, .null, .null)] :=
  ⟨_, rfl, by decide⟩

end Http2
end VTest
