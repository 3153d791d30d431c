import VTest.Hpack.Integer
import VTest.Http2.HdrBlock

/-!
# VTest.Http2.SizeUpdate

Dynamic table size updates at the start of a header block. `HPK_DecHdr` takes an update for an
error unless the block ends with it, so `decode_hdr` never gets behind one.

* `numDecode_update`: the size is read as it was written.
* `hpkDecHdr_update_last`, `hpkDecHdr_update_more`: an update at the end of the block, and before
  it.
-/

namespace VTest
namespace Http2

open Hpack

/-- RFC 7541 section 6.3: the update of the table to `num` bytes. -/
def updateBytes (num : UInt32) : Bytes :=
  if num.toNat < 31 then [UInt8.ofNat (0x20 + num.toNat)]
  else 0x3f :: Varint.encode (num.toNat - 31)

theorem rfcInt_updateBytes (num : UInt32) (tail : Bytes) :
    rfcInt 5 (updateBytes num ++ tail) = some (num.toNat, tail) := by
  rw [updateBytes]
  split
  · rename_i h
    have hb : (UInt8.ofNat (0x20 + num.toNat)).toNat = 0x20 + num.toNat :=
      Varint.toNat_ofNat (by omega)
    have hmod : (0x20 + num.toNat) % 2 ^ 5 = num.toNat := by omega
    rw [List.singleton_append, rfcInt, hb, hmod, if_pos (by omega)]
  · rename_i h
    rw [List.cons_append, rfcInt, Varint.decode_encode, if_neg (by decide)]
    simp only [Option.map_some, Option.some.injEq, Prod.mk.injEq, and_true]
    omega

theorem numDecode_update (num : UInt32) (done tail : Bytes) :
    ReadsNum done 5 num (updateBytes num) tail := by
  rw [updateBytes]
  split
  · rename_i h
    have hb : (UInt8.ofNat (0x20 + num.toNat)).toNat = 0x20 + num.toNat :=
      Varint.toNat_ofNat (by omega)
    have hmod : (UInt8.ofNat (0x20 + num.toNat)).toNat % 2 ^ 5 = num.toNat := by omega
    rw [ReadsNum, List.singleton_append,
      numDecode_short (by omega) (by omega) done tail (by omega), hmod, UInt32.ofNat_toNat]
  · exact numDecode_groups (by omega) (by omega) (by decide) (by omega) done tail

/-- The first byte of an update is none of the other representations. -/
theorem hpkDecHdr_update (ctx : HpkCtx) (done : Bytes) (num : UInt32) (tail : Bytes)
    (h : HpkHdr) : hpkDecHdr ctx ⟨done, updateBytes num ++ tail⟩ h =
      decResize ctx ⟨done, updateBytes num ++ tail⟩ h := by
  have lead : ∀ n : Fin 32, UInt8.ofNat (0x20 + n.val) &&& 128 = 0 ∧
      UInt8.ofNat (0x20 + n.val) >>> 6 ≠ 1 ∧ UInt8.ofNat (0x20 + n.val) >>> 4 ≠ 0 ∧
      UInt8.ofNat (0x20 + n.val) >>> 4 ≠ 1 ∧ UInt8.ofNat (0x20 + n.val) >>> 5 = 1 := by decide
  obtain ⟨n, r, hb⟩ : ∃ (n : Fin 32) (r : Bytes),
      updateBytes num = UInt8.ofNat (0x20 + n.val) :: r := by
    rw [updateBytes]
    split
    · rename_i h
      exact ⟨⟨num.toNat, by omega⟩, [], rfl⟩
    · exact ⟨⟨31, by omega⟩, _, rfl⟩
  obtain ⟨h1, h2, h3, h4, h5⟩ := lead n
  rw [hb, List.cons_append]
  simp only [hpkDecHdr, h1, h2, h3, h4, h5, ne_eq, not_true_eq_false, if_false, if_true]

theorem hpkDecHdr_update_last (ctx : HpkCtx) (num : UInt32) (h : HpkHdr) :
    ∃ it, hpkDecHdr ctx ⟨[], updateBytes num⟩ h =
      hpkResizeTbl ctx num >>= fun ctx' => .ok (.done, h, it, ctx') := by
  have hdec := hpkDecHdr_update ctx [] num [] h
  have hnum := numDecode_update num [] []
  rw [ReadsNum] at hnum
  rw [List.append_nil] at hdec hnum
  refine ⟨⟨[] ++ updateBytes num, []⟩, ?_⟩
  rw [hdec, decResize, hnum]
  rfl

/-- An update that something follows is refused, and the table is left as it is. -/
theorem hpkDecHdr_update_more (ctx : HpkCtx) (num : UInt32) {tail : Bytes} (ht : tail ≠ [])
    (h : HpkHdr) :
    ∃ it, hpkDecHdr ctx ⟨[], updateBytes num ++ tail⟩ h = .ok (.err, h, it, ctx) := by
  have hnum := numDecode_update num [] tail
  rw [ReadsNum, result_more _ ht] at hnum
  refine ⟨⟨[] ++ updateBytes num, tail⟩, ?_⟩
  rw [hpkDecHdr_update, decResize, hnum]
  rfl

/-! ## Blocks -/

/-- The table after updates to each of `nums`, in order. -/
def resizeAll (ctx : HpkCtx) (nums : List UInt32) : Res HpkCtx := nums.foldlM hpkResizeTbl ctx

/-- `decode_hdr` ends with `hpk_done` on the updates `nums` and then the representations `reps`.
Its table and header slots are then those of decoding `reps` alone with the table resized to each
of `nums`. -/
def UpdatesHonoured (ctx : HpkCtx) (slots : List HpkHdr) (nums : List UInt32) (reps : Bytes) :
    Prop :=
  ∃ ctx1 new k ctx', resizeAll ctx nums = .ok ctx1 ∧
    decodeLoop .err ctx ⟨[], nums.flatMap updateBytes ++ reps⟩ slots = .ok (.done, new, k, ctx') ∧
    if reps = [] then headersOf new = headersOf slots ∧ ctx' = ctx1
    else decodeLoop .err ctx1 ⟨[], reps⟩ slots = .ok (.done, new, k, ctx')

theorem size_updates_honoured_iff (ctx : HpkCtx) {slots : List HpkHdr} (hfree : slots ≠ [])
    {nums : List UInt32} (hnums : nums ≠ []) (reps : Bytes) :
    UpdatesHonoured ctx slots nums reps ↔ reps = [] ∧ nums.length = 1 := by
  obtain ⟨h, slots, rfl⟩ := List.exists_cons_of_ne_nil hfree
  obtain ⟨num, nums, rfl⟩ := List.exists_cons_of_ne_nil hnums
  by_cases hlast : reps = [] ∧ nums = []
  · obtain ⟨rfl, rfl⟩ := hlast
    refine iff_of_true ?_ ⟨rfl, rfl⟩
    obtain ⟨ctx1, hr, -⟩ := hpkResizeTbl_total ctx num
    obtain ⟨it, hdec⟩ := hpkDecHdr_update_last ctx num h
    refine ⟨ctx1, h :: slots, 1, ctx1, ?_, ?_, ?_⟩
    · simp [resizeAll, hr]
    · rw [List.append_nil, List.flatMap_cons, List.flatMap_nil, List.append_nil, decodeLoop, hdec,
        hr]
      rfl
    · rw [if_pos rfl]
      exact ⟨rfl, rfl⟩
  · refine iff_of_false ?_ fun h => hlast ⟨h.1, by simpa using h.2⟩
    have hmore : nums.flatMap updateBytes ++ reps ≠ [] := by
      intro hnil
      obtain ⟨h1, h2⟩ := List.append_eq_nil_iff.mp hnil
      refine hlast ⟨h2, ?_⟩
      cases nums with
      | nil => rfl
      | cons n nums =>
        rw [List.flatMap_cons, updateBytes] at h1
        split at h1 <;> simp at h1
    rintro ⟨_, _, _, _, _, hloop, _⟩
    obtain ⟨it, hdec⟩ := hpkDecHdr_update_more ctx num hmore h
    rw [List.flatMap_cons, List.append_assoc, decodeLoop, hdec] at hloop
    cases hloop

/-- One update that is the whole block. -/
theorem size_update_alone : UpdatesHonoured (hpkNewCtx 4096) (noHeaders maxHdr) [256] [] :=
  (size_updates_honoured_iff (hpkNewCtx 4096) (by simp [noHeaders, maxHdr]) (by simp) []).mpr
    ⟨rfl, rfl⟩

/-- An update to 0 bytes in front of `:method: GET` makes the block fail. -/
theorem update_before_header_refused :
    decodeHdr true (hpkNewCtx 4096) (noHeaders maxHdr) (updateBytes 0 ++ [0x82]) =
        .error .fatal ∧
      ¬ UpdatesHonoured (hpkNewCtx 4096) (noHeaders maxHdr) [0] [0x82] := by
  refine ⟨rfl, ?_⟩
  rintro ⟨_, _, _, _, _, hloop, _⟩
  cases hloop

end Http2
end VTest
