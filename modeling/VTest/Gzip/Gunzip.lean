import VTest.Gzip.Zlib
import VTest.Http1.Rx
import VTest.Http2.Body

/-!
# VTest.Gzip.Gunzip

`vtc_gzip.c`: the `gunzip` command of HTTP/1 and HTTP/2, over any `inflate` that keeps the contract
of `Zlib`.

The loop of `vtc_gunzip_vsb` takes `Z_BUF_ERROR` for "the buffer is full" and calls again. A stream
that is cut off is `Z_BUF_ERROR` too, every time. `vtc_gunzip` then copies the result over the
compressed body, without a look at how much room there is.

* `gunzip_ends_iff`: the loop ends iff the stream does.
* `gunzip_fits_iff`: the copy stays inside the memory of the body iff the result is not longer.
-/

namespace VTest
namespace Gzip

open Http2 (load loads DataBody)

variable {decode : Bytes → Bytes × Ending}

/-! ## `vtc_gunzip_vsb` -/

def bufsiz : Nat := 8192

/-- The `do` loop of `vtc_gunzip_vsb`: `i` and `vout` behind it. -/
def gunzipLoop (z : Zlib decode) : Nat → z.State → Bytes → Res (ZCode × Bytes)
  | 0, _, _ => .error .fuel
  | fuel + 1, s, vout =>
    let r := z.inflate s bufsiz
    let vout := vout ++ r.out
    if r.code = .ok ∨ r.code = .bufError then gunzipLoop z fuel r.next vout
    else .ok (r.code, vout)

/-- The result, and whether an error was logged. In fatal mode that ends the test. -/
def vtcGunzipVsb (z : Zlib decode) (fatal : Bool) (fuel : Nat) (vin : Bytes) :
    Res (Bytes × Bool) := do
  let (i, vout) ← gunzipLoop z fuel (z.init vin) []
  fatalIf (fatal && i ≠ .streamEnd)
  return (vout, i ≠ .streamEnd)

section

variable (z : Zlib decode)

theorem Ending.Allows.final {e : Ending} {out rest : Bytes} {i : ZCode}
    (h : e.Allows out rest i) (hi : ¬(i = .ok ∨ i = .bufError)) : i = e.code ∧ rest = [] := by
  cases i with
  | ok => exact absurd (.inl rfl) hi
  | bufError => exact absurd (.inr rfl) hi
  | streamEnd =>
    obtain ⟨rfl, hrest⟩ := h
    exact ⟨rfl, hrest⟩
  | failed c =>
    obtain ⟨rfl, hrest⟩ := h
    exact ⟨rfl, hrest⟩

/-- A call after which the loop goes on has written something, unless the stream is cut off. -/
theorem Ending.Allows.progress {e : Ending} {out rest : Bytes} {i : ZCode}
    (h : e.Allows out rest i) (hi : i = .ok ∨ i = .bufError) (he : e ≠ .truncated) :
    out ≠ [] := by
  rcases hi with rfl | rfl
  · exact h.elim
  · rcases h with h | ⟨h, _⟩
    · exact h
    · exact absurd h he

/-- The loop ends with what the stream stands for. -/
theorem gunzipLoop_sound (fuel : Nat) : ∀ {s : z.State} {vout : Bytes} {i : ZCode} {v : Bytes},
    gunzipLoop z fuel s vout = .ok (i, v) →
      z.ending s ≠ .truncated ∧ i = (z.ending s).code ∧ v = vout ++ z.left s := by
  induction fuel with
  | zero => exact fun h => nomatch h
  | succ fuel ih =>
    intro s vout i v h
    have hleft := z.left_inflate s bufsiz
    rw [gunzipLoop] at h
    split at h
    · obtain ⟨he, hi, hv⟩ := ih h
      rw [z.ending_inflate] at he hi
      rw [List.append_assoc, ← hleft] at hv
      exact ⟨he, hi, hv⟩
    · rename_i hi
      obtain ⟨hcode, hrest⟩ := (z.code_inflate s bufsiz (by decide)).final hi
      cases h
      refine ⟨fun he => ?_, hcode, by rw [hleft, hrest, List.append_nil]⟩
      rw [he] at hcode
      exact hi (.inr hcode)

/-- Every call writes something, so as many calls as there are bytes, and one, are enough. -/
theorem gunzipLoop_returns (fuel : Nat) : ∀ (s : z.State) (vout : Bytes),
    z.ending s ≠ .truncated → (z.left s).length < fuel →
      ∃ r, gunzipLoop z fuel s vout = .ok r := by
  induction fuel with
  | zero => exact fun s vout _ hlen => absurd hlen (Nat.not_lt_zero _)
  | succ fuel ih =>
    intro s vout he hlen
    rw [gunzipLoop]
    split
    · rename_i hi
      have hout := List.length_pos_iff.mpr ((z.code_inflate s bufsiz (by decide)).progress hi he)
      have hshort : (z.left (z.inflate s bufsiz).next).length < fuel := by
        have := congrArg List.length (z.left_inflate s bufsiz)
        rw [List.length_append] at this
        omega
      exact ih _ _ (by rwa [z.ending_inflate]) hshort
    · exact ⟨_, rfl⟩

end

/-- **The loop ends iff the stream does**: for a byte string that is cut off before the end of the
compressed stream there is no end. -/
theorem gunzip_ends_iff (z : Zlib decode) (vin : Bytes) :
    (∃ fuel r, gunzipLoop z fuel (z.init vin) [] = .ok r) ↔ (decode vin).2 ≠ .truncated := by
  constructor
  · rintro ⟨fuel, ⟨i, v⟩, h⟩
    rw [← z.ending_init]
    exact (gunzipLoop_sound z fuel h).1
  · intro he
    rw [← z.ending_init] at he
    exact ⟨_, gunzipLoop_returns z ((z.left (z.init vin)).length + 1) _ [] he (Nat.lt_succ_self _)⟩

/-- The header of a gzip stream, with nothing behind it. -/
def gzipHeader : Bytes := [0x1f, 0x8b, 8, 0, 0, 0, 0, 0, 0, 3]

/-- What the beginnings of the header stand for. -/
def headerOnly (b : Bytes) : Bytes × Ending :=
  if b.isPrefixOf gzipHeader then ([], .truncated) else ([], .failed .dataError)

theorem header_alone_spins :
    headerOnly gzipHeader = ([], .truncated) ∧ ∀ fuel,
      gunzipLoop (.ofDecode headerOnly) fuel ((Zlib.ofDecode headerOnly).init gzipHeader) [] =
        .error .fuel := by
  refine ⟨rfl, fun fuel => ?_⟩
  induction fuel with
  | zero => rfl
  | succ fuel ih => exact ih

/-! ## `vtc_gunzip` -/

/-- `body[0] != (char)0x1f || body[1] != (char)0x8b`. -/
def lacksMagic (mem : Bytes) : Res Bool := do
  let b0 ← load mem 0
  if b0 ≠ 0x1f then return true
  else do
    let b1 ← load mem 1
    return b1 ≠ 0x8b

/-- `vtc_gunzip` up to the copy: `vout`, and whether an error was logged. The memory is that from
`body` to the end of what is allocated there. -/
def gunzipOut (z : Zlib decode) (fatal : Bool) (fuel : Nat) (mem : Bytes) (bodylen : Int) :
    Res (Bytes × Bool) := do
  let lacks ← lacksMagic mem
  fatalIf (fatal && lacks)
  check (0 ≤ bodylen)
  let vin ← loads mem 0 bodylen.toNat
  let (vout, failed) ← vtcGunzipVsb z fatal fuel vin
  return (vout, lacks || failed)

/-- `memcpy(body, VSB_data(vout), VSB_len(vout) + 1)`. -/
def copyOver (mem vout : Bytes) : Res Bytes :=
  if vout.length + 1 ≤ mem.length then .ok (put mem 0 (vout ++ [0])) else .error .ub

/-- The memory of the body, and `*bodylen`. -/
def vtcGunzip (z : Zlib decode) (fatal : Bool) (fuel : Nat) (mem : Bytes) (bodylen : Int) :
    Res (Bytes × Nat) := do
  let (vout, _) ← gunzipOut z fatal fuel mem bodylen
  let mem ← copyOver mem vout
  return (mem, vout.length)

/-- The `gunzip` command of HTTP/1, on the body in the receive buffer. -/
def cmdHttpGunzip (z : Zlib decode) (fuel : Nat) (hp : Http1.Http) : Res Http1.Http :=
  match hp.body with
  | none => .error .assert
  | some p => do
    let (mem, len) ← vtcGunzip z hp.fatal fuel (hp.mem.drop p) hp.bodyl
    return { hp with mem := hp.mem.take p ++ mem, bodyl := len, bodylen := decimal len }

/-- The `gunzip` command of a stream: `s->body` and `s->bodylen`. -/
def cmdGunzip (z : Zlib decode) (fatal : Bool) (fuel : Nat) (b : DataBody) : Res (Bytes × Nat) :=
  if b.mem = [] then .error .assert else vtcGunzip z fatal fuel b.mem b.bodylen

/-- Where `vtc_gunzip` gets to the copy, an error was reported or there is room for the bytes and
the NUL. -/
def CopyFits (z : Zlib decode) (fatal : Bool) (mem : Bytes) (bodylen : Int) : Prop :=
  ∀ fuel vout reported, gunzipOut z fatal fuel mem bodylen = .ok (vout, reported) →
    reported = true ∨ vout.length + 1 ≤ mem.length

/-- The memory starts with a gzip stream of `n` bytes, whole, that stands for `out`. -/
structure Gunzips (decode : Bytes → Bytes × Ending) (mem : Bytes) (n : Nat) (out : Bytes) :
    Prop where
  magic0 : mem[0]? = some 0x1f
  magic1 : mem[1]? = some 0x8b
  inside : n ≤ mem.length
  decoded : decode (mem.take n) = (out, .complete)

theorem lacksMagic_eq_ok {mem : Bytes} :
    lacksMagic mem = .ok false ↔ mem[0]? = some 0x1f ∧ mem[1]? = some 0x8b := by
  rcases mem with _ | ⟨b0, _ | ⟨b1, mem⟩⟩
  · simp [lacksMagic, load]
  · by_cases h0 : b0 = 0x1f <;> simp [lacksMagic, load, h0]
  · by_cases h0 : b0 = 0x1f <;> simp [lacksMagic, load, h0]

/-- No error is logged exactly for a stream that is whole. -/
theorem vtcGunzipVsb_clean (z : Zlib decode) (fatal : Bool) (vin vout : Bytes) :
    (∃ fuel, vtcGunzipVsb z fatal fuel vin = .ok (vout, false)) ↔
      decode vin = (vout, .complete) := by
  constructor
  · rintro ⟨fuel, h⟩
    obtain ⟨⟨i, v⟩, hloop, h⟩ := bind_eq_ok.mp h
    obtain ⟨_, hi, hv⟩ := gunzipLoop_sound z fuel hloop
    rw [z.ending_init] at hi
    rw [z.left_init, List.nil_append] at hv
    obtain ⟨_, h⟩ := fatalIf_bind_eq_ok.mp h
    cases hd : (decode vin).2 with
    | complete =>
      rw [hd] at hi
      subst hi hv
      cases h
      exact Prod.ext rfl hd
    | truncated => simp_all [Ending.code]
    | failed e => simp_all [Ending.code]
  · intro h
    have he : z.ending (z.init vin) ≠ .truncated := by
      rw [z.ending_init, h]
      nofun
    obtain ⟨⟨i, v⟩, hloop⟩ := gunzipLoop_returns z _ (z.init vin) [] he (Nat.lt_succ_self _)
    obtain ⟨_, hi, hv⟩ := gunzipLoop_sound z _ hloop
    rw [z.ending_init, h] at hi
    rw [z.left_init, h, List.nil_append] at hv
    subst hi hv
    refine ⟨(z.left (z.init vin)).length + 1, ?_⟩
    rw [vtcGunzipVsb, hloop, ok_bind]
    cases fatal <;> rfl

theorem gunzipOut_clean (z : Zlib decode) (fatal : Bool) (mem vout : Bytes) (bodylen : Int) :
    (∃ fuel, gunzipOut z fatal fuel mem bodylen = .ok (vout, false)) ↔
      ∃ n : Nat, bodylen = n ∧ Gunzips decode mem n vout := by
  constructor
  · rintro ⟨fuel, h⟩
    obtain ⟨lacks, hmagic, h⟩ := bind_eq_ok.mp h
    obtain ⟨_, h⟩ := fatalIf_bind_eq_ok.mp h
    obtain ⟨hpos, h⟩ := check_bind_eq_ok.mp h
    obtain ⟨vin, hvin, h⟩ := bind_eq_ok.mp h
    obtain ⟨⟨v, failed⟩, hvsb, h⟩ := bind_eq_ok.mp h
    have hv : v = vout := congrArg Prod.fst (Except.ok.inj h)
    have hno : (lacks || failed) = false := congrArg Prod.snd (Except.ok.inj h)
    obtain ⟨rfl, rfl⟩ := Bool.or_eq_false_iff.mp hno
    obtain ⟨h0, h1⟩ := lacksMagic_eq_ok.mp hmagic
    rw [loads] at hvin
    split at hvin
    · rename_i hin
      cases hvin
      have hdec := (vtcGunzipVsb_clean z fatal _ _).mp ⟨fuel, hvsb⟩
      rw [List.drop_zero, hv] at hdec
      exact ⟨bodylen.toNat, by simpa using hpos, h0, h1, by omega, hdec⟩
    · cases hvin
  · rintro ⟨n, rfl, hg⟩
    obtain ⟨fuel, hvsb⟩ := (vtcGunzipVsb_clean z fatal _ _).mpr hg.decoded
    refine ⟨fuel, ?_⟩
    have hin : 0 + (n : Int).toNat ≤ mem.length := by
      have := hg.inside
      omega
    rw [gunzipOut, lacksMagic_eq_ok.mpr ⟨hg.magic0, hg.magic1⟩, ok_bind, Bool.and_false,
      fatalIf_false, ok_bind, decide_eq_true (by omega), check_true, ok_bind, loads, if_pos hin,
      ok_bind, List.drop_zero, Int.toNat_natCast, hvsb]
    rfl

theorem copyFits_iff (z : Zlib decode) (fatal : Bool) (mem : Bytes) (bodylen : Int) :
    CopyFits z fatal mem bodylen ↔ ∀ (n : Nat) (out : Bytes), bodylen = n →
      Gunzips decode mem n out → out.length + 1 ≤ mem.length := by
  constructor
  · intro h n out hn hg
    obtain ⟨fuel, hout⟩ := (gunzipOut_clean z fatal mem out bodylen).mpr ⟨n, hn, hg⟩
    rcases h fuel out false hout with h | h
    · cases h
    · exact h
  · intro h fuel vout reported hout
    cases reported with
    | true => exact .inl rfl
    | false =>
      obtain ⟨n, hn, hg⟩ := (gunzipOut_clean z fatal mem vout bodylen).mp ⟨fuel, hout⟩
      exact .inr (h n vout hn hg)

/-- **The copy fits iff the result is not longer than the room of the compressed body**: for a
stream the body as `parse_data` allocated it, for HTTP/1 the receive buffer from the body on. -/
theorem gunzip_fits_iff (z : Zlib decode) :
    (∀ (fatal : Bool) (b : DataBody), CopyFits z fatal b.mem b.bodylen ↔
      ∀ out, Gunzips decode b.mem b.bodylen out → out.length ≤ b.bodylen) ∧
    ∀ (hp : Http1.Http) (p : Nat), hp.body = some p →
      (CopyFits z hp.fatal (hp.mem.drop p) hp.bodyl ↔ ∀ (n : Nat) (out : Bytes), hp.bodyl = n →
        Gunzips decode (hp.mem.drop p) n out → p + out.length < hp.mem.length) := by
  constructor
  · intro fatal b
    have hroom : ∀ out, Gunzips decode b.mem b.bodylen out →
        (out.length + 1 ≤ b.mem.length ↔ out.length ≤ b.bodylen) := by
      intro out hg
      have hne : 0 < b.mem.length := (List.getElem?_eq_some_iff.mp hg.magic0).1
      have := b.len
      omega
    rw [copyFits_iff]
    constructor
    · exact fun h out hg => (hroom out hg).mp (h b.bodylen out rfl hg)
    · intro h n out hn hg
      obtain rfl : b.bodylen = n := Int.ofNat.inj hn
      exact (hroom out hg).mpr (h out hg)
  · intro hp p _
    rw [copyFits_iff, List.length_drop]
    refine forall₂_congr fun n out => imp_congr_right fun _ => imp_congr_right fun _ => ?_
    omega

/-- A hundred times the letter `a`, as `gzip` compresses it. -/
def gzippedAs : Bytes :=
  [0x1f, 0x8b, 8, 0, 0, 0, 0, 0, 2, 3, 0x4b, 0x4c, 0xa4, 0x3d, 0, 0,
    0x64, 0x7a, 0x70, 0xaf, 0x64, 0, 0, 0]

def onlyAs (b : Bytes) : Bytes × Ending :=
  if b = gzippedAs then (List.replicate 100 97, .complete) else ([], .failed .dataError)

/-- The frame that brings it. -/
def gzippedFrame : Http2.Frame :=
  { size := 24, stid := 1, type := Http2.typeData, flags := Http2.flagEndStream, data := gzippedAs }

theorem inflated_body_overruns :
    ∃ b, Http2.parseDataBody true .empty gzippedFrame = .ok b ∧
      cmdGunzip (.ofDecode onlyAs) true 2 b = .error .ub ∧
      ¬CopyFits (.ofDecode onlyAs) true b.mem b.bodylen := by
  refine ⟨DataBody.empty.append gzippedAs, rfl, rfl, fun h => ?_⟩
  have hfits := h 2 (List.replicate 100 97) false rfl
  revert hfits
  decide

end Gzip
end VTest
