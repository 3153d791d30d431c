import VTest.Lib.Bits
import VTest.Lib.CodeTree
import VTest.Hpack.Huffman

/-!
# VTest.Hpack.HuffCode

The code of `tbl/vhp_huffman.h` as a tree, and the two tables of the program against it.

* `huffTree` has the codes of the file and, for the end of string, the 30 ones of RFC 7541.
* `codingTable_code`: the encoding table has the same codes.
* `TblOk`: what a decoding table does. Its lookup takes one code, or one whole byte of a longer
  code; `tbl_ok` says it of every table the generator prints.
-/

namespace VTest
namespace Hpack

open CodeTree

/-! ## The code -/

/-- The code of a byte, and of the end of string. -/
def huffCode : Option UInt8 → List Bool
  | none => List.replicate 30 true
  | some c =>
    match vhpHuffman.find? fun l => l.1.beq c.toNat with
    | some l => toBits l.2.2 l.2.1
    | none => []

/-- The lines of the file, and the end of string. -/
def hphCodes : List (Option UInt8 × List Bool) :=
  vhpHuffman.map (fun l => (some (UInt8.ofNat l.1), toBits l.2.2 l.2.1)) ++
    [(none, List.replicate 30 true)]

def huffTree : CodeTree (Option UInt8) := (build 31 hphCodes).getD (.leaf none)

theorem build_hphCodes : (build 31 hphCodes).isSome = true := by decide +kernel

theorem mem_codes_of_hph {p : Option UInt8 × List Bool} (h : p ∈ hphCodes) :
    p ∈ huffTree.codes := by
  obtain ⟨t, ht⟩ := Option.isSome_iff_exists.mp build_hphCodes
  rw [huffTree, ht]
  exact codes_of_build ht p h

/-- The encoding table has the lines of the file, in the order of the bytes. -/
theorem codingTable_lines : ((codingTable.take 256).zipIdx.all fun e =>
    (vhpHuffman.find? fun l => l.1.beq e.2).any fun l =>
      l.2.1.beq e.1.1 && l.2.2.beq e.1.2) = true := by
  decide +kernel

theorem codingTable_bounds : ∀ l ∈ codingTable, 5 ≤ l.2 ∧ l.2 ≤ 30 ∧ l.1 < 2 ^ l.2 := by
  decide +kernel

theorem codingTable_mem (c : UInt8) : codingTable.getD c.toNat (0, 0) ∈ codingTable := by
  have hlt : c.toNat < codingTable.length :=
    Nat.lt_of_lt_of_le c.toNat_lt (by decide +kernel : 2 ^ 8 ≤ codingTable.length)
  rw [List.getD_eq_getElem _ _ hlt]
  exact List.getElem_mem hlt

theorem find_line (c : UInt8) : ∃ l, vhpHuffman.find? (fun l => l.1.beq c.toNat) = some l ∧
    l.2 = codingTable.getD c.toNat (0, 0) := by
  have hlt : c.toNat < codingTable.length :=
    Nat.lt_of_lt_of_le c.toNat_lt (by decide +kernel : 2 ^ 8 ≤ codingTable.length)
  have hget : (codingTable.take 256).zipIdx[c.toNat]? =
      some (codingTable.getD c.toNat (0, 0), c.toNat) := by
    rw [List.getElem?_zipIdx, List.getElem?_take_of_lt c.toNat_lt, List.getElem?_eq_getElem hlt,
      List.getD_eq_getElem _ _ hlt]
    simp
  have h := List.all_eq_true.mp codingTable_lines _ (List.mem_of_getElem? hget)
  cases hl : vhpHuffman.find? (fun l => l.1.beq c.toNat) with
  | none =>
    rw [hl] at h
    cases h
  | some l =>
    simp only [hl, Option.any_some, Bool.and_eq_true] at h
    exact ⟨l, rfl, Prod.ext (Nat.eq_of_beq_eq_true h.1) (Nat.eq_of_beq_eq_true h.2)⟩

theorem find_line_fst {n : Nat} {l : Nat × Nat × Nat}
    (h : vhpHuffman.find? (fun l => l.1.beq n) = some l) : l.1 = n :=
  Nat.eq_of_beq_eq_true (List.find?_some (p := fun l : Nat × Nat × Nat => l.1.beq n) h)

/-- The encoding table has the codes of the file. -/
theorem huffCode_some (c : UInt8) : huffCode (some c) =
    toBits (codingTable.getD c.toNat (0, 0)).2 (codingTable.getD c.toNat (0, 0)).1 := by
  obtain ⟨l, hl, he⟩ := find_line c
  rw [huffCode, hl, ← he]

theorem huffCode_mem (a : Option UInt8) : (a, huffCode a) ∈ huffTree.codes := by
  refine mem_codes_of_hph ?_
  cases a with
  | none => exact List.mem_append_right _ (List.mem_singleton.mpr rfl)
  | some c =>
    obtain ⟨l, hl, _⟩ := find_line c
    refine List.mem_append_left _ (List.mem_map.mpr ⟨l, List.mem_of_find?_eq_some hl, ?_⟩)
    rw [huffCode, hl, find_line_fst hl, UInt8.ofNat_toNat]

/-- Each byte has one line: it has at least one, and there are 256 lines. -/
theorem lines_perm : (List.range 256).Perm (vhpHuffman.map (·.1)) := by
  have hsub : List.range 256 ⊆ vhpHuffman.map (·.1) := by
    intro n hn
    obtain ⟨l, hl, _⟩ := find_line (UInt8.ofNat n)
    have hc := find_line_fst hl
    rw [UInt8.toNat_ofNat', Nat.mod_eq_of_lt (List.mem_range.mp hn)] at hc
    exact List.mem_map.mpr ⟨l, List.mem_of_find?_eq_some hl, hc⟩
  have hlen : (vhpHuffman.map (·.1)).length ≤ (List.range 256).length := by
    rw [List.length_map, List.length_range]
    decide +kernel
  exact (List.subperm_of_subset List.nodup_range hsub).perm_of_length_le hlen

/-- A symbol has one code. -/
theorem huffCode_of_mem {a : Option UInt8} {c : List Bool} (h : (a, c) ∈ huffTree.codes) :
    c = huffCode a := by
  obtain ⟨t, ht⟩ := Option.isSome_iff_exists.mp build_hphCodes
  rw [huffTree, ht] at h
  rcases List.mem_append.mp (mem_of_build ht _ h) with h | h
  · obtain ⟨l, hl, he⟩ := List.mem_map.mp h
    cases he
    have hlt : l.1 < 256 :=
      List.mem_range.mp (lines_perm.mem_iff.mpr (List.mem_map.mpr ⟨l, hl, rfl⟩))
    obtain ⟨l', hf, _⟩ := find_line (UInt8.ofNat l.1)
    have hc := find_line_fst hf
    rw [UInt8.toNat_ofNat', Nat.mod_eq_of_lt hlt] at hc
    have hll : l' = l := List.inj_on_of_nodup_map
      (lines_perm.nodup_iff.mp List.nodup_range) (List.mem_of_find?_eq_some hf) hl hc
    rw [huffCode, hf, hll]
  · cases List.mem_singleton.mp h
    rfl

/-! ## The decoding tables -/

/-- The lines for one table, with the others left out. -/
def setFor (q : Nat) (tbl : List (Nat × Sym)) (pfx : Nat) (s : Sym) : List (Nat × Sym) :=
  if pfx = q then setSym tbl pfx s else tbl

def lineFor (q : Nat) (tbl : List (Nat × Sym)) (l : Nat × Nat × Nat) : List (Nat × Sym) :=
  let s := sym l.2.1 l.2.2 l.1 none
  let tbl := setFor q tbl s.pfx s
  if s.pfx ≠ 0 then setFor q tbl (s.pfx / 256) (sym (s.pfx % 256) 8 0 (some s.pfx)) else tbl

def genFor (q : Nat) : List (Nat × Sym) :=
  setFor q (vhpHuffman.foldl (lineFor q) []) 0xffffff (sym 63 6 0 none)

theorem setSym_filter (q : Nat) (tbls : List (Nat × Sym)) (pfx : Nat) (s : Sym) :
    (setSym tbls pfx s).filter (·.1 == q) = setFor q (tbls.filter (·.1 == q)) pfx s := by
  rw [setSym, setFor, List.filter_append, List.filter_filter]
  split
  · rename_i h
    rw [setSym, List.filter_filter, List.filter_singleton]
    simp only [h, beq_self_eq_true, cond_true, Bool.and_comm]
  · rename_i h
    rw [List.filter_singleton, beq_false_of_ne h, cond_false, List.append_nil]
    refine List.filter_congr fun e _ => ?_
    by_cases hq : e.1 = q
    · simp [hq, Ne.symm h]
    · simp [hq]

theorem genLine_filter (q : Nat) (tbls : List (Nat × Sym)) (l : Nat × Nat × Nat) :
    (genLine tbls l).filter (·.1 == q) = lineFor q (tbls.filter (·.1 == q)) l := by
  simp only [genLine, lineFor]
  split <;> simp only [setSym_filter]

theorem genTbls_filter (q : Nat) : genTbls.filter (·.1 == q) = genFor q := by
  have hfold (ls : List (Nat × Nat × Nat)) (tbls : List (Nat × Sym)) :
      (ls.foldl genLine tbls).filter (·.1 == q) =
        ls.foldl (lineFor q) (tbls.filter (·.1 == q)) := by
    induction ls generalizing tbls with
    | nil => rfl
    | cons l ls ih => rw [List.foldl_cons, List.foldl_cons, ih, genLine_filter]
  rw [genTbls, setSym_filter, hfold]
  rfl

/-- The table for the symbols `ss`. -/
def fmtTbl (ss : List Sym) : Stbl :=
  let msl := (ss.map (·.vall)).foldl max 0
  let ss := ss.map fun s => { s with val := s.val * 2 ^ (msl - s.vall) }
  { msk := msl
    syms := (ss.insertionSort fun a b => a.val ≤ b.val).flatMap fun s =>
      List.replicate (2 ^ (msl - s.vall)) ⟨s.vall, UInt8.ofNat (s.chr % 256), s.esc⟩ }

theorem stbl_eq (q : Nat) : stbl q = fmtTbl ((genFor q).map (·.2)) := by
  rw [← genTbls_filter]
  rfl

/-- The prefixes that have a table. -/
def tblPfxs : List Nat :=
  [0, 0xfe, 0xff, 0xfffe, 0xffff, 0xfffff6, 0xfffff7, 0xfffff8, 0xfffff9, 0xfffffa, 0xfffffb,
    0xfffffc, 0xfffffd, 0xfffffe, 0xffffff]

/-- The bits that lead to the table of a prefix: none, or one to three whole bytes. -/
def path (pfx : Nat) : List Bool :=
  if pfx = 0 then [] else if pfx < 2 ^ 8 then toBits 8 pfx
  else if pfx < 2 ^ 16 then toBits 16 pfx else toBits 24 pfx

/-- The byte that is stored for a symbol: the end of string becomes a NUL. -/
def symChr (a : Option UInt8) : UInt8 := a.getD 0

/-- The lookup of the bits `bits` in the table at `t` has the entry `e`. -/
def entryCheck (t : CodeTree (Option UInt8)) (pfx : Nat) (bits : List Bool) (e : Ssym) : Bool :=
  (1).ble e.csm && e.csm.ble bits.length &&
    match t.walk (bits.take e.csm), e.nxt with
    | (.leaf a, []), none => e.chr.toNat.beq (symChr a).toNat
    | _, some nxt => tblPfxs.contains nxt && path nxt == path pfx ++ bits.take e.csm
    | _, _ => false

def tblCheck (pfx : Nat) (tbl : Stbl) : Bool :=
  (huffTree.walk (path pfx)).1.isNode && (1).ble tbl.msk && tbl.msk.ble 8 &&
    tbl.syms.length.beq (2 ^ tbl.msk) &&
    tbl.syms.zipIdx.all (fun e =>
      entryCheck (huffTree.walk (path pfx)).1 pfx (toBits tbl.msk e.2) e.1) &&
    (tbl.syms.getLast?.any fun e => e.csm.beq tbl.msk)

theorem tblCheck_all :
    (tblPfxs.all fun pfx => tblCheck pfx (fmtTbl ((genFor pfx).map (·.2)))) = true := by
  decide +kernel

/-- The entry `e` stands for the bits `c` behind the prefix: they end a code, or they lead to the
next table. -/
inductive Entry (pfx : Nat) (c : List Bool) (e : Ssym) : Prop where
  | sym (a : Option UInt8) (hw : huffTree.walk (path pfx ++ c) = (.leaf a, []))
      (hn : e.nxt = none) (hc : e.chr = symChr a)
  | esc (nxt : Nat) (hn : e.nxt = some nxt) (hm : nxt ∈ tblPfxs) (hp : path nxt = path pfx ++ c)

/-- The table of a prefix. Its last entry, for a string of ones, takes all of them. -/
structure TblOk (pfx : Nat) : Prop where
  inside : huffTree.Inside (path pfx)
  pos : 1 ≤ (stbl pfx).msk
  le : (stbl pfx).msk ≤ 8
  entry : ∀ bits : List Bool, bits.length = (stbl pfx).msk →
    ∃ e, (stbl pfx).syms[ofBits bits]? = some e ∧ 1 ≤ e.csm ∧ e.csm ≤ (stbl pfx).msk ∧
      Entry pfx (bits.take e.csm) e ∧
      (bits = List.replicate (stbl pfx).msk true → e.csm = (stbl pfx).msk)

theorem entry_of_check {pfx : Nat} {bits : List Bool} {e : Ssym}
    (hin : huffTree.Inside (path pfx))
    (h : entryCheck (huffTree.walk (path pfx)).1 pfx bits e = true) :
    1 ≤ e.csm ∧ e.csm ≤ bits.length ∧ Entry pfx (bits.take e.csm) e := by
  rw [entryCheck, Bool.and_eq_true, Bool.and_eq_true] at h
  obtain ⟨⟨h1, h2⟩, h⟩ := h
  refine ⟨Nat.le_of_ble_eq_true h1, Nat.le_of_ble_eq_true h2, ?_⟩
  split at h
  · rename_i a hw hn
    refine .sym a ?_ hn (UInt8.toNat_inj.mp (Nat.eq_of_beq_eq_true h))
    rw [walk_append, walk_snd_of_inside hin]
    exact hw
  · rename_i nxt hn
    rw [Bool.and_eq_true] at h
    exact .esc nxt hn (List.contains_iff_mem.mp h.1) (eq_of_beq h.2)
  · cases h

theorem tbl_ok {pfx : Nat} (h : pfx ∈ tblPfxs) : TblOk pfx := by
  have hc := List.all_eq_true.mp tblCheck_all pfx h
  rw [← stbl_eq] at hc
  simp only [tblCheck, Bool.and_eq_true] at hc
  obtain ⟨⟨⟨⟨⟨hin, h1⟩, h8⟩, hl⟩, hall⟩, hlast⟩ := hc
  have hlen : (stbl pfx).syms.length = 2 ^ (stbl pfx).msk := Nat.eq_of_beq_eq_true hl
  refine ⟨hin, Nat.le_of_ble_eq_true h1, Nat.le_of_ble_eq_true h8, fun bits hb => ?_⟩
  have hlt : ofBits bits < (stbl pfx).syms.length := by
    rw [hlen, ← hb]
    exact ofBits_lt bits
  have hget := List.getElem?_eq_getElem hlt
  have hmem : ((stbl pfx).syms[ofBits bits], ofBits bits) ∈ (stbl pfx).syms.zipIdx := by
    refine List.mem_of_getElem? (i := ofBits bits) ?_
    rw [List.getElem?_zipIdx, hget]
    simp
  have he := entry_of_check hin (List.all_eq_true.mp hall _ hmem)
  rw [toBits_eq hb, hb] at he
  refine ⟨_, hget, he.1, he.2.1, he.2.2, fun hones => ?_⟩
  -- the last index is all ones
  have hidx : ofBits bits = (stbl pfx).syms.length - 1 := by
    have := ofBits_replicate_true (stbl pfx).msk
    rw [hones, hlen]
    omega
  rw [List.getLast?_eq_getElem?, ← hidx, hget, Option.any_some] at hlast
  exact Nat.eq_of_beq_eq_true hlast

end Hpack
end VTest
