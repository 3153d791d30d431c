import VTest.Hpack.Integer
import VTest.Hpack.HuffmanSpec

/-!
# VTest.Hpack.Literal

String literals: `str_encode` writes the length of the encoded text and the text, `str_decode`
reads both.

* `strEncode_wrote`: the bytes of a literal are `numBytes` of its length and a `Body`.
* `strDecode_body`: `str_decode` reads a body whose length it has read.
* `strBody_left`: a text that is read ends as far behind its length as the length says.
-/

namespace VTest
namespace Hpack

/-- The first byte of a literal before the length goes into it. -/
def huffBit (huff : Bool) : UInt8 := if huff then 0x80 else 0

/-- `body` are the bytes of the text `b` in a literal. -/
def Body (b : Bytes) (huff : Bool) (body : Bytes) : Prop :=
  body.length = huffSimulate b huff ∧ if huff then ValidHuff body b else body = b

theorem huffSimulate_nil (huff : Bool) : huffSimulate [] huff = 0 := by
  cases huff <;> rfl

theorem huffSimulate_pos {b : Bytes} (hb : b ≠ []) (huff : Bool) : 0 < huffSimulate b huff := by
  cases huff with
  | false => exact List.length_pos_iff.mpr hb
  | true =>
    have := codeLen_pos hb
    rw [huffSimulate_true hb]
    omega

/-! ## Encoding -/

theorem read_of (b : Bytes) (huff : Bool) : (HpkTxt.of b huff).read = .ok b := by
  rw [HpkTxt.read]
  split
  · rename_i h0
    rw [List.length_eq_zero_iff.mp h0]
  · exact deref_of b huff

/-- With the buffer of an iterator, whose size is an `int`, the length of a literal that was
written is not reduced modulo `2 ^ 32`. -/
theorem strEncode_wrote {it it' : HpkIter} {b : Bytes} {huff : Bool} {ret : HpkResult}
    (h : strEncode it (.of b huff) = .ok (ret, it')) (hret : ret ≠ .err)
    (hint : it.left.length < 2 ^ 31) :
    ∃ body, it'.done = it.done ++ (numBytes 7 (huffBit huff) (huffSimulate b huff) ++ body) ∧
      Body b huff body ∧ huffSimulate b huff < 2 ^ 31 := by
  unfold strEncode at h
  rw [read_of, ok_bind] at h
  obtain ⟨hne, h⟩ := check_bind_eq_ok.mp h
  obtain ⟨⟨ret1, it1⟩, h1, h⟩ := bind_eq_ok.mp h
  simp only at h
  split at h
  · cases h
    exact absurd rfl hret
  rename_i hr1
  obtain ⟨hd, _, hl⟩ := numEncode_wrote h1 hr1
  split at h
  · cases h
    exact absurd rfl hret
  rename_i hroom
  have hroom : huffSimulate b huff ≤ it1.left.length := Nat.le_of_not_lt hroom
  have hlt : huffSimulate b huff < 2 ^ 31 := by
    obtain ⟨x, l, hx⟩ := List.exists_cons_of_ne_nil (by simpa using hne : it.left ≠ [])
    rw [hx] at hint hl
    simp only [List.tail_cons, List.length_cons] at hint hl
    omega
  have hslen : (UInt32.ofNat (huffSimulate b huff)).toNat = huffSimulate b huff :=
    toNat_ofNat (by omega)
  simp only [HpkTxt.of, hslen] at hd
  suffices hbody : ∃ body, it'.done = it1.done ++ body ∧ Body b huff body by
    obtain ⟨body, hdone, hbody⟩ := hbody
    refine ⟨body, ?_, hbody, hlt⟩
    rw [hdone, hd, List.append_assoc]
    rfl
  cases huff with
  | false =>
    cases h
    exact ⟨b, rfl, rfl, rfl⟩
  | true =>
    by_cases hb : b = []
    · subst hb
      obtain ⟨_, h⟩ := check_bind_eq_ok.mp h
      cases h
      exact ⟨[], by simp, rfl, [], rfl, by simp, by simp [Ones]⟩
    · obtain ⟨w, hw, henc, hv⟩ := huffEncode_wrote hb hroom
      cases henc.symm.trans h
      exact ⟨w, rfl, hw, hv⟩

/-! ## Decoding -/

/-- `str_decode` behind the length `num`. -/
def strBody (huff : UInt8) (num : Nat) (it : HpkIter) (t : HpkTxt) :
    Res (HpkResult × HpkTxt × HpkIter) :=
  if it.left.length < num then .ok (.err, t, it)
  else if huff ≠ 0 then
    huffDecode it num >>= fun p =>
      if p.1.isEmpty then .ok (.err, { t with ptr := .freed }, p.2)
      else .ok (p.2.result, .of p.1 true, p.2)
  else
    .ok ((HpkIter.mk (it.done ++ it.left.take num) (it.left.drop num)).result,
      .of (it.left.take num), ⟨it.done ++ it.left.take num, it.left.drop num⟩)

theorem strDecode_num {done r : Bytes} {x : UInt8} {t : HpkTxt} {ret : HpkResult} {num : UInt32}
    {it : HpkIter} (h : numDecode ⟨done, x :: r⟩ 7 = .ok (ret, num, it)) :
    strDecode ⟨done, x :: r⟩ t =
      if ret ≠ .more then .ok (.err, t, it)
      else check (!it.left.isEmpty) >>= fun _ => strBody (x &&& 0x80) num.toNat it t := by
  rw [strDecode]
  simp only [List.isEmpty_cons, Bool.not_false, check_true, ok_bind, h, List.headD_cons]
  rfl

/-- A body is read, but for the empty Huffman text, whose decoding counts as a failure. -/
theorem strBody_body {b body : Bytes} {huff : Bool} {x : UInt8} (hx : x ≠ 0 ↔ huff = true)
    (hbody : Body b huff body) (hb : b ≠ [] ∨ huff = false) (done w : Bytes) (t : HpkTxt) :
    strBody x body.length ⟨done, body ++ w⟩ t =
      .ok ((HpkIter.mk (done ++ body) w).result, .of b huff, ⟨done ++ body, w⟩) := by
  rw [strBody, if_neg (by simp)]
  cases huff with
  | false =>
    obtain rfl : body = b := hbody.2
    rw [if_neg (by simp [hx])]
    simp
  | true =>
    have hne : b ≠ [] := hb.resolve_right (by simp)
    rw [if_pos (hx.mpr rfl), huffDecode_valid hbody.2, ok_bind,
      if_neg (by simpa using hne)]

/-- A text that is read is as long, in its encoded form, as the length says. -/
theorem strBody_left {x : UInt8} {num : Nat} {it it' : HpkIter} {t t' : HpkTxt} {ret : HpkResult}
    (h : strBody x num it t = .ok (ret, t', it')) (hret : ret ≠ .err) :
    it'.left.length + num = it.left.length := by
  rw [strBody] at h
  split at h
  · cases h
    exact absurd rfl hret
  rename_i hlen
  split at h
  · obtain ⟨⟨str, it1⟩, hdec, h⟩ := bind_eq_ok.mp h
    simp only at h
    split at h
    · cases h
      exact absurd rfl hret
    rename_i hstr
    cases h
    obtain ⟨s, r, _, _, he⟩ := huffDecode_splits it.done (it.left.take num) (it.left.drop num)
    have hnum : (it.left.take num).length = num := by simp; omega
    rw [List.take_append_drop, hnum, hdec] at he
    generalize hx : Except.ok (str, it') = y at he
    cases he with
    | padding _ =>
      cases hx
      simp
      omega
    | abort _ _ _ => cases hx
    | refused _ _ =>
      cases hx
      exact absurd rfl hstr
  · cases h
    simp
    omega

/-- Behind a full prefix the length takes bytes of the text, and the text is read from behind
them. -/
theorem strDecode_full {pre r : Bytes} {x : UInt8} (hx : x.toNat % 128 = 127) {t t' : HpkTxt}
    {ret : HpkResult} {it : HpkIter} (h : strDecode ⟨pre, x :: r⟩ t = .ok (ret, t', it))
    (hret : ret ≠ .err) : it.left.length + 127 < r.length := by
  have hout := numDecode_long (by omega : 1 ≤ 7) (by omega) pre r hx
  cases hnum : numDecode ⟨pre, x :: r⟩ 7 with
  | error e =>
    rw [strDecode, hnum] at h
    cases h
  | ok p =>
    obtain ⟨ret1, num, it1⟩ := p
    rw [strDecode_num hnum] at h
    split at h
    · cases h
      exact absurd rfl hret
    rename_i hmore
    obtain ⟨_, h⟩ := check_bind_eq_ok.mp h
    have hleft := strBody_left h hret
    rw [hnum] at hout
    have hacc := hout.accepted (by rw [not_not.mp hmore]; simp)
    omega

theorem headByte_huff (huff : Bool) {n : Nat} (hn : n < 128) :
    headByte (huffBit huff) 7 (UInt8.ofNat n) &&& 0x80 ≠ 0 ↔ huff = true := by
  have hx : (UInt8.ofNat n).toNat = n := Varint.toNat_ofNat (by omega)
  rw [top_bit_iff, toNat_headByte (by omega) _ (by omega), hx]
  cases huff with
  | false =>
    have : (huffBit false).toNat = 0 := rfl
    simp [this]
    omega
  | true =>
    have : (huffBit true).toNat = 128 := rfl
    simp [this]

/-- The first byte of a literal carries the flag. -/
theorem numBytes_huff (huff : Bool) (n : Nat) : ∃ x w, numBytes 7 (huffBit huff) n = x :: w ∧
    (x &&& 0x80 ≠ 0 ↔ huff = true) := by
  rw [numBytes]
  split
  · exact ⟨_, _, rfl, headByte_huff huff (by omega)⟩
  · exact ⟨_, _, rfl, headByte_huff huff (by omega)⟩

/-- A length of 127 is written as a full prefix alone, so the bytes of the text are read as the rest
of the length, and the decoder does not stop behind them. -/
theorem strDecode_127 {body : Bytes} (hlen : body.length = 127) (huff : Bool) {pre pre' w : Bytes}
    {t t' : HpkTxt} {ret : HpkResult} (hret : ret ≠ .err) :
    strDecode ⟨pre, numBytes 7 (huffBit huff) 127 ++ (body ++ w)⟩ t ≠ .ok (ret, t', ⟨pre', w⟩) := by
  intro h
  have hfull : numBytes 7 (huffBit huff) 127 = [headByte (huffBit huff) 7 (UInt8.ofNat 127)] := rfl
  have hmod := headByte_mod (show 7 ≤ 8 by omega) (huffBit huff)
    (show (UInt8.ofNat 127).toNat < 2 ^ 7 by decide)
  rw [hfull, List.singleton_append] at h
  have hleft := strDecode_full hmod h hret
  simp only [List.length_append] at hleft
  omega

/-- `huff_decode` of no bytes gives no text, which is an error. -/
theorem strBody_huff_empty {x : UInt8} (hx : x &&& 0x80 ≠ 0) (it : HpkIter) (t : HpkTxt) :
    strBody (x &&& 0x80) 0 it t = .ok (.err, { t with ptr := .freed }, it) := by
  rw [strBody, if_neg (by simp), if_pos hx]
  rfl

/-- The literal of a text, with its length written as `num_encode` does, in front of `w`. -/
theorem strDecode_literal {b body : Bytes} {huff : Bool} (hbody : Body b huff body)
    (hlt : huffSimulate b huff < 2 ^ 31) (pre w : Bytes) (t : HpkTxt) :
    (strDecode ⟨pre, numBytes 7 (huffBit huff) (huffSimulate b huff) ++ (body ++ w)⟩ t =
      .ok ((HpkIter.mk (pre ++ (numBytes 7 (huffBit huff) (huffSimulate b huff) ++ body)) w).result,
        .of b huff, ⟨pre ++ (numBytes 7 (huffBit huff) (huffSimulate b huff) ++ body), w⟩)) ↔
      huffSimulate b huff ≠ 127 ∧ (b = [] → huff = false ∧ w ≠ []) := by
  obtain ⟨x, n, hx, hflag⟩ := numBytes_huff huff (huffSimulate b huff)
  have hbl : body.length = huffSimulate b huff := hbody.1
  by_cases h127 : huffSimulate b huff = 127
  · refine iff_of_false (fun h => ?_) fun h => h.1 h127
    rw [h127] at h hbl
    exact strDecode_127 hbl huff (result_ne_err _) h
  · have hn : (UInt32.ofNat (huffSimulate b huff)).toNat = huffSimulate b huff :=
      toNat_ofNat (by omega)
    have hnum : ReadsNum pre 7 (UInt32.ofNat (huffSimulate b huff)) (x :: n) (body ++ w) := by
      have hne : (UInt32.ofNat (huffSimulate b huff)).toNat ≠ 2 ^ 7 - 1 := by omega
      have h := numDecode_numBytes (by omega) (by omega) (huffBit huff) hne pre (body ++ w)
      rwa [hn, hx] at h
    rw [ReadsNum, List.cons_append] at hnum
    rw [hx, List.cons_append, strDecode_num hnum, hn, ← hbl]
    by_cases hmore : body ++ w = []
    · -- nothing is behind the length, which the decoder takes for an error
      obtain ⟨rfl, rfl⟩ := List.append_eq_nil_iff.mp hmore
      refine iff_of_false ?_ fun h => ?_
      · intro h
        cases h
      · have hb : b = [] := by
          by_contra hb
          have := huffSimulate_pos hb huff
          simp only [List.length_nil] at hbl
          omega
        exact (h.2 hb).2 rfl
    · rw [result_more _ hmore, if_neg (by simp), List.isEmpty_eq_false_iff.mpr hmore]
      simp only [Bool.not_false, check_true, ok_bind]
      by_cases hb : b ≠ [] ∨ huff = false
      · rw [strBody_body hflag hbody hb, List.append_assoc, List.cons_append]
        refine iff_of_true rfl ⟨by omega, fun hnil => ?_⟩
        have hhuff := hb.resolve_left (not_not_intro hnil)
        subst hhuff
        obtain rfl : body = b := hbody.2
        exact ⟨rfl, fun hw => hmore (by rw [hnil, hw]; rfl)⟩
      · -- the empty Huffman text
        obtain ⟨hb, hh⟩ := not_or.mp hb
        obtain rfl := not_not.mp hb
        refine iff_of_false ?_ fun h => hh (h.2 rfl).1
        rw [huffSimulate_nil] at hbl
        obtain rfl := List.length_eq_zero_iff.mp hbl
        intro h
        rw [List.nil_append, List.length_nil,
          strBody_huff_empty (hflag.mpr (by simpa using hh))] at h
        injection h with h
        exact result_ne_err _ (congrArg Prod.fst h).symm

/-- The bytes that `str_encode` has put between `done` and the cursor of `it` are read by
`str_decode` as the text `b` with its flag, up to the bytes `w` behind them. -/
def TextReadBack (b : Bytes) (huff : Bool) (done : Bytes) (it : HpkIter) (pre w : Bytes)
    (t : HpkTxt) : Prop :=
  ∃ enc, it.done = done ++ enc ∧ strDecode ⟨pre, enc ++ w⟩ t =
    .ok (if w = [] then .done else .more, .of b huff, ⟨pre ++ enc, w⟩)

end Hpack
end VTest
