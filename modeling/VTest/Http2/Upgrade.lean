import VTest.Lib.Base64
import VTest.Http2.Settings

/-!
# VTest.Http2.Upgrade

The `HTTP2-Settings` header of an upgrade from HTTP/1: `b64_settings` packs eight characters at a
time into a word and cuts it into the tag and the value of a setting.

* `b64Word_digits`: the word holds the number that the characters spell.
* `b64Settings_text`: the settings of a text one after the other, each with the low half of its
  value.
-/

namespace VTest
namespace Http2

open Hpack

/-- `vv` for a character of the alphabet. -/
def b64Digit (c : UInt8) : Option UInt64 :=
  if 65 ≤ c && c ≤ 90 then some (c - 65).toUInt64
  else if 97 ≤ c && c ≤ 122 then some ((c - 97).toUInt64 + 26)
  else if 48 ≤ c && c ≤ 57 then some ((c - 48).toUInt64 + 52)
  else if c = 45 then some 62
  else if c = 95 then some 63
  else none

/-- The inner loop, with so many characters to go. The NUL at the end of the text is no character of
the alphabet either. -/
def b64Word : Nat → UInt64 → Bytes → Res (UInt64 × Bytes)
  | 0, v, s => .ok (v, s)
  | _ + 1, _, [] => .error .fatal
  | n + 1, v, c :: s =>
    match b64Digit c with
    | none => .error .fatal
    | some vv => b64Word n (v ||| (vv <<< UInt64.ofNat (6 * n))) s

/-- What `b64_settings` changes. `server` says that `hp->sfd` is set. `log` is what is logged: the
settings in the order in which they are come by. -/
structure Upgrade where
  server : Bool
  enc : HpkCtx
  dec : HpkCtx
  noRfc7540Priorities : Int := 0
  log : List (Nat × Nat) := []

/-- The table that `SETTINGS_HEADER_TABLE_SIZE` is about. -/
def Upgrade.table (hp : Upgrade) : HpkCtx := if hp.server then hp.enc else hp.dec

def Upgrade.setTable (hp : Upgrade) (ctx : HpkCtx) : Upgrade :=
  if hp.server then { hp with enc := ctx } else { hp with dec := ctx }

/-- A turn of the outer loop, behind the inner one. -/
def b64Apply (hp : Upgrade) (i : UInt16) (v : UInt64) : Res Upgrade := do
  let hp := if i = 0x9 then { hp with noRfc7540Priorities := v.toNat } else hp
  let hp ← if i = 0x1 then do
      let ctx ← hpkResizeTbl hp.table v.toUInt32
      pure (hp.setTable ctx)
    else pure hp
  return { hp with log := hp.log ++ [(i.toNat, v.toNat)] }

def b64Loop : Nat → Bytes → Upgrade → Res Upgrade
  | 0, _, _ => .error .fuel
  | _ + 1, [], hp => .ok hp
  | fuel + 1, c :: s, hp => do
    let (v, s) ← b64Word 8 0 (c :: s)
    let i := (v >>> 32).toUInt16
    let v := v &&& 0xffff
    let hp ← b64Apply hp i v
    b64Loop fuel s hp

def b64Settings (hp : Upgrade) (s : Bytes) : Res Upgrade := b64Loop (s.length + 1) s hp

/-! ## Words -/

theorem b64Digit_char : ∀ d : Fin 64, b64Digit (base64Char d) = some (UInt64.ofNat d) := by
  decide

theorem b64Digit_eq_none {c : UInt8} : b64Digit c = none ↔ c ∉ base64Alphabet := by
  have h : ∀ n : Fin 256, b64Digit (UInt8.ofNat n) = none ↔
      UInt8.ofNat n ∉ base64Alphabet := by decide +kernel
  have := h ⟨c.toNat, c.toNat_lt⟩
  rwa [UInt8.ofNat_toNat] at this

/-- A digit below those that are there. -/
theorem toNat_or_digit {v : UInt64} {d n : Nat} (hd : d < 64) (hn : n < 8)
    (hv : 2 ^ (6 * (n + 1)) ∣ v.toNat) :
    (v ||| (UInt64.ofNat d <<< UInt64.ofNat (6 * n))).toNat = v.toNat + d * 2 ^ (6 * n) := by
  have hpow : 2 ^ (6 * (n + 1)) = 2 ^ (6 * n) * 64 := by
    rw [Nat.mul_add, Nat.pow_add]
  have hlow : d * 2 ^ (6 * n) < 2 ^ (6 * (n + 1)) := by
    rw [hpow, Nat.mul_comm]
    exact Nat.mul_lt_mul_of_pos_left hd (Nat.two_pow_pos _)
  have hle : 2 ^ (6 * (n + 1)) ≤ 2 ^ 64 := Nat.pow_le_pow_right (by omega) (by omega)
  have hshift : (UInt64.ofNat d <<< UInt64.ofNat (6 * n)).toNat = d * 2 ^ (6 * n) := by
    rw [UInt64.toNat_shiftLeft, UInt64.toNat_ofNat', UInt64.toNat_ofNat',
      Nat.mod_eq_of_lt (by omega : d < 2 ^ 64), Nat.mod_eq_of_lt (by omega : 6 * n < 2 ^ 64),
      Nat.mod_eq_of_lt (by omega : 6 * n < 64), Nat.shiftLeft_eq, Nat.mod_eq_of_lt (by omega)]
  obtain ⟨k, hk⟩ := hv
  rw [UInt64.toNat_or, hshift, hk, ← Nat.two_pow_add_eq_or_of_lt hlow]

theorem b64Word_digits : ∀ (ds : List Nat) (v : UInt64) (s : Bytes), (∀ d ∈ ds, d < 64) →
    ds.length ≤ 8 → 2 ^ (6 * ds.length) ∣ v.toNat →
    ∃ w, b64Word ds.length v (ds.map base64Char ++ s) = .ok (w, s) ∧
      w.toNat = v.toNat + base64Val ds := by
  intro ds
  induction ds with
  | nil => exact fun v s _ _ _ => ⟨v, rfl, rfl⟩
  | cons d ds ih =>
    intro v s hds hlen hv
    obtain ⟨hd, hds⟩ := List.forall_mem_cons.mp hds
    rw [List.length_cons] at hlen hv
    have hor := toNat_or_digit hd (by omega) hv
    have hdvd : 2 ^ (6 * ds.length) ∣
        (v ||| (UInt64.ofNat d <<< UInt64.ofNat (6 * ds.length))).toNat := by
      rw [hor]
      refine Nat.dvd_add (Nat.dvd_trans ?_ hv) (Nat.dvd_mul_left _ _)
      exact Nat.pow_dvd_pow 2 (by omega)
    obtain ⟨w, hw, hval⟩ := ih _ s hds (by omega) hdvd
    refine ⟨w, ?_, ?_⟩
    · rw [List.map_cons, List.cons_append, List.length_cons, b64Word, b64Digit_char ⟨d, hd⟩]
      exact hw
    · rw [hval, hor, base64Val, Nat.add_assoc]

/-- The word of a setting, and what it is cut into. -/
theorem b64Word_pair {p : Nat × Nat} (h1 : p.1 < 2 ^ 16) (h2 : p.2 < 2 ^ 32) (r : Bytes) :
    ∃ w c s, base64url (pairBytes p ++ r) = c :: s ∧
      b64Word 8 0 (c :: s) = .ok (w, base64url r) ∧
      (w >>> 32).toUInt16.toNat = p.1 ∧ (w &&& 0xffff).toNat = p.2 % 2 ^ 16 := by
  obtain ⟨ds, hlen, hds, hval, htext⟩ := base64url_six (UInt8.ofNat (p.1 / 2 ^ 8))
    (UInt8.ofNat p.1) (UInt8.ofNat (p.2 / 2 ^ 24)) (UInt8.ofNat (p.2 / 2 ^ 16))
    (UInt8.ofNat (p.2 / 2 ^ 8)) (UInt8.ofNat p.2) r
  have hnum : base64Val ds = p.1 * 2 ^ 32 + p.2 := by
    rw [hval]
    simp only [UInt8.toNat_ofNat']
    omega
  obtain ⟨w, hw, hwval⟩ := b64Word_digits ds 0 (base64url r) hds (by omega) (Nat.dvd_zero _)
  obtain ⟨d, ds', rfl⟩ := List.exists_cons_of_length_eq_add_one hlen
  have hwnum : w.toNat = p.1 * 2 ^ 32 + p.2 := by
    rw [hwval, hnum, UInt64.toNat_zero, Nat.zero_add]
  rw [hlen] at hw
  refine ⟨w, base64Char d, ds'.map base64Char ++ base64url r, htext, hw, ?_, ?_⟩
  · rw [UInt64.toNat_toUInt16, UInt64.toNat_shiftRight, hwnum]
    show ((p.1 * 2 ^ 32 + p.2) >>> 32) % 2 ^ 16 = p.1
    rw [Nat.shiftRight_eq_div_pow]
    omega
  · rw [UInt64.toNat_and, hwnum]
    show (p.1 * 2 ^ 32 + p.2) &&& (2 ^ 16 - 1) = p.2 % 2 ^ 16
    rw [Nat.and_two_pow_sub_one_eq_mod]
    omega

/-! ## Texts -/

/-- A setting as `b64_settings` comes by it: the mask keeps the low half of the value. -/
def cutValue (p : Nat × Nat) : Nat × Nat := (p.1, p.2 % 2 ^ 16)

/-- A turn of the outer loop, on the numbers. -/
def applySetting (hp : Upgrade) (p : Nat × Nat) : Res Upgrade :=
  b64Apply hp (UInt16.ofNat p.1) (UInt64.ofNat p.2)

theorem length_base64url_cons (p : Nat × Nat) (r : Bytes) :
    (base64url r).length < (base64url (pairBytes p ++ r)).length := by
  obtain ⟨ds, hlen, -, -, htext⟩ := base64url_six (UInt8.ofNat (p.1 / 2 ^ 8))
    (UInt8.ofNat p.1) (UInt8.ofNat (p.2 / 2 ^ 24)) (UInt8.ofNat (p.2 / 2 ^ 16))
    (UInt8.ofNat (p.2 / 2 ^ 8)) (UInt8.ofNat p.2) r
  have : base64url (pairBytes p ++ r) = ds.map base64Char ++ base64url r := htext
  rw [this, List.length_append, List.length_map, hlen]
  omega

theorem b64Loop_text : ∀ (l : List (Nat × Nat)), (∀ p ∈ l, p.1 < 2 ^ 16 ∧ p.2 < 2 ^ 32) →
    ∀ (fuel : Nat) (hp : Upgrade), (base64url (l.flatMap pairBytes)).length < fuel →
      b64Loop fuel (base64url (l.flatMap pairBytes)) hp =
        (l.map cutValue).foldlM applySetting hp := by
  intro l
  induction l with
  | nil =>
    intro _ fuel hp hfuel
    obtain ⟨n, rfl⟩ := Nat.exists_eq_succ_of_ne_zero (Nat.ne_of_gt hfuel)
    rfl
  | cons p l ih =>
    intro hl fuel hp hfuel
    obtain ⟨⟨h1, h2⟩, hl⟩ := List.forall_mem_cons.mp hl
    have hlt := length_base64url_cons p (l.flatMap pairBytes)
    obtain ⟨w, c, s, htext, hword, hi, hv⟩ := b64Word_pair h1 h2 (l.flatMap pairBytes)
    have hi' : (w >>> 32).toUInt16 = UInt16.ofNat p.1 := by
      rw [← hi, UInt16.ofNat_toNat]
    have hv' : w &&& 0xffff = UInt64.ofNat (p.2 % 2 ^ 16) := by
      rw [← hv, UInt64.ofNat_toNat]
    rw [List.flatMap_cons] at hfuel ⊢
    obtain ⟨n, rfl⟩ := Nat.exists_eq_succ_of_ne_zero (Nat.ne_of_gt (Nat.zero_lt_of_lt hfuel))
    rw [htext, b64Loop, hword, ok_bind, List.map_cons, List.foldlM_cons]
    simp only [hi', hv']
    rw [applySetting, cutValue]
    congr 1
    funext hp'
    exact ih hl n hp' (by omega)

theorem b64Settings_text {l : List (Nat × Nat)} (hl : ∀ p ∈ l, p.1 < 2 ^ 16 ∧ p.2 < 2 ^ 32)
    (hp : Upgrade) : b64Settings hp (base64url (l.flatMap pairBytes)) =
      (l.map cutValue).foldlM applySetting hp :=
  b64Loop_text l hl _ hp (Nat.lt_succ_self _)

/-- What the settings `l` leave. -/
structure Upgraded (hp : Upgrade) (l : List (Nat × Nat)) (hp' : Upgrade) : Prop where
  log : hp'.log = hp.log ++ l
  maxsize : hp'.table.maxsize = (lastSetting 1 l).elim hp.table.maxsize UInt32.ofNat
  priorities : hp'.noRfc7540Priorities = (lastSetting 9 l).elim hp.noRfc7540Priorities Nat.cast

theorem table_setTable (hp : Upgrade) (ctx : HpkCtx) : (hp.setTable ctx).table = ctx := by
  cases h : hp.server with
  | true => simp [Upgrade.setTable, Upgrade.table, h]
  | false => simp [Upgrade.setTable, Upgrade.table, h]

theorem setTable_frame (hp : Upgrade) (ctx : HpkCtx) : (hp.setTable ctx).log = hp.log ∧
    (hp.setTable ctx).noRfc7540Priorities = hp.noRfc7540Priorities := by
  rw [Upgrade.setTable]
  split
  · exact ⟨rfl, rfl⟩
  · exact ⟨rfl, rfl⟩

theorem applySetting_spec (hp : Upgrade) {p : Nat × Nat} (h1 : p.1 < 2 ^ 16) (h2 : p.2 < 2 ^ 32) :
    ∃ hp', applySetting hp p = .ok hp' ∧ hp'.log = hp.log ++ [p] ∧
      hp'.table.maxsize = (if p.1 = 1 then UInt32.ofNat p.2 else hp.table.maxsize) ∧
      hp'.noRfc7540Priorities = (if p.1 = 9 then (p.2 : Int) else hp.noRfc7540Priorities) := by
  have hi : (UInt16.ofNat p.1).toNat = p.1 := by
    rw [UInt16.toNat_ofNat', Nat.mod_eq_of_lt h1]
  have hv : (UInt64.ofNat p.2).toNat = p.2 := by
    rw [UInt64.toNat_ofNat', Nat.mod_eq_of_lt (by omega)]
  have hv32 : (UInt64.ofNat p.2).toUInt32 = UInt32.ofNat p.2 := by
    apply UInt32.toNat_inj.mp
    rw [UInt64.toNat_toUInt32, hv, UInt32.toNat_ofNat']
  have heq : ∀ k : UInt16, UInt16.ofNat p.1 = k ↔ p.1 = k.toNat := by
    intro k
    rw [← UInt16.toNat_inj, hi]
  rw [applySetting, b64Apply]
  by_cases hp1 : p.1 = 1
  · have h9 : ¬ UInt16.ofNat p.1 = 0x9 := by
      rw [heq, hp1]
      decide
    obtain ⟨ctx, hctx, hmax⟩ := hpkResizeTbl_total hp.table (UInt32.ofNat p.2)
    obtain ⟨hlog, hprio⟩ := setTable_frame hp ctx
    simp only [if_neg h9, if_pos ((heq 1).mpr hp1), hv32, hctx, ok_bind, pure_res]
    refine ⟨_, rfl, ?_, ?_, ?_⟩
    · rw [hlog, hi, hv]
    · show (hp.setTable ctx).table.maxsize = _
      rw [table_setTable, hmax, if_pos hp1]
    · rw [if_neg (by omega)]
      exact hprio
  · simp only [if_neg (mt (heq 1).mp hp1), ok_bind, pure_res]
    by_cases hp9 : p.1 = 9
    · rw [if_pos ((heq 9).mpr hp9)]
      refine ⟨_, rfl, ?_, ?_, ?_⟩
      · simp only [hi, hv]
      · rw [if_neg hp1]
        rfl
      · rw [if_pos hp9]
        simp only [hv]
    · rw [if_neg (mt (heq 9).mp hp9)]
      refine ⟨_, rfl, ?_, ?_, ?_⟩
      · simp only [hi, hv]
      · rw [if_neg hp1]
        rfl
      · rw [if_neg hp9]

theorem applySettings_spec (hp : Upgrade) (l : List (Nat × Nat))
    (hl : ∀ p ∈ l, p.1 < 2 ^ 16 ∧ p.2 < 2 ^ 32) :
    ∃ hp', l.foldlM applySetting hp = .ok hp' ∧ Upgraded hp l hp' := by
  induction l using List.reverseRecOn with
  | nil => exact ⟨hp, rfl, by simp, rfl, rfl⟩
  | append_singleton l p ih =>
    obtain ⟨hl, hp1⟩ := List.forall_mem_append.mp hl
    obtain ⟨hp', hrun, hu⟩ := ih hl
    obtain ⟨h1, h2⟩ := hp1 p (List.mem_singleton_self p)
    obtain ⟨hp2, hstep, hlog, hmax, hprio⟩ := applySetting_spec hp' h1 h2
    refine ⟨hp2, ?_, ?_, ?_, ?_⟩
    · rw [List.foldlM_append, hrun, ok_bind, List.foldlM_cons, hstep]
      rfl
    · rw [hlog, hu.log, List.append_assoc]
    · rw [hmax, lastSetting_append]
      split
      · rfl
      · exact hu.maxsize
    · rw [hprio, lastSetting_append]
      split
      · rfl
      · exact hu.priorities

/-! ## Texts that are refused -/

theorem b64Apply_total (hp : Upgrade) (i : UInt16) (v : UInt64) :
    ∃ hp', b64Apply hp i v = .ok hp' := by
  rw [b64Apply]
  by_cases h : i = 1
  · simp only [if_pos h]
    obtain ⟨ctx, hctx, -⟩ := hpkResizeTbl_total
      (if i = 9 then { hp with noRfc7540Priorities := v.toNat } else hp).table v.toUInt32
    rw [hctx]
    exact ⟨_, rfl⟩
  · simp only [if_neg h]
    exact ⟨_, rfl⟩

/-- The inner loop takes characters of the alphabet only, or is fatal. -/
theorem b64Word_cases : ∀ (n : Nat) (v : UInt64) (s : Bytes), b64Word n v s = .error .fatal ∨
    ∃ w a r, b64Word n v s = .ok (w, r) ∧ s = a ++ r ∧ a.length = n ∧
      ∀ c ∈ a, c ∈ base64Alphabet := by
  intro n
  induction n with
  | zero => exact fun v s => .inr ⟨v, [], s, rfl, rfl, rfl, by simp⟩
  | succ n ih =>
    intro v s
    cases s with
    | nil => exact .inl rfl
    | cons c s =>
      rw [b64Word]
      cases hc : b64Digit c with
      | none => exact .inl rfl
      | some vv =>
        have hmem : c ∈ base64Alphabet := by
          by_contra hno
          rw [b64Digit_eq_none.mpr hno] at hc
          cases hc
        rcases ih (v ||| (vv <<< UInt64.ofNat (6 * n))) s with h | ⟨w, a, r, h, rfl, hlen, ha⟩
        · exact .inl h
        · exact .inr ⟨w, c :: a, r, h, rfl, by simp [hlen], List.forall_mem_cons.mpr ⟨hmem, ha⟩⟩

/-- The text is made of whole groups of characters of the alphabet. -/
def WellFormed (s : Bytes) : Prop := (∀ c ∈ s, c ∈ base64Alphabet) ∧ s.length % 8 = 0

theorem b64Loop_refused : ∀ (fuel : Nat) (s : Bytes) (hp : Upgrade), s.length < fuel →
    ¬WellFormed s → b64Loop fuel s hp = .error .fatal := by
  intro fuel
  induction fuel with
  | zero => intro s hp h; omega
  | succ fuel ih =>
    intro s hp hfuel hs
    cases s with
    | nil => exact absurd ⟨by simp, rfl⟩ hs
    | cons c s =>
      rw [b64Loop]
      rcases b64Word_cases 8 0 (c :: s) with h | ⟨w, a, r, h, hsplit, hlen, ha⟩
      · rw [h, error_bind]
      · obtain ⟨hp', hp1⟩ := b64Apply_total hp (w >>> 32).toUInt16 (w &&& 0xffff)
        have hlen' := congrArg List.length hsplit
        rw [List.length_append, hlen] at hlen'
        simp only [h, ok_bind, hp1]
        refine ih r hp' (by omega) fun hr => hs ?_
        rw [hsplit]
        refine ⟨List.forall_mem_append.mpr ⟨ha, hr.1⟩, ?_⟩
        rw [List.length_append, hlen, Nat.add_mod_left]
        exact hr.2

theorem b64_settings_inverts_iff (hp : Upgrade) {l : List (Nat × Nat)}
    (hl : ∀ p ∈ l, p.1 < 2 ^ 16 ∧ p.2 < 2 ^ 32) :
    ((∃ hp', b64Settings hp (base64url (l.flatMap pairBytes)) = .ok hp' ∧ Upgraded hp l hp') ↔
      ∀ p ∈ l, p.2 < 2 ^ 16) ∧
    ∀ s, (∃ c ∈ s, c ∉ base64Alphabet) ∨ s.length % 8 ≠ 0 → b64Settings hp s = .error .fatal := by
  constructor
  · obtain ⟨hp', hrun, hu⟩ := applySettings_spec hp (l.map cutValue) (by
      intro p hp
      obtain ⟨q, hq, rfl⟩ := List.mem_map.mp hp
      exact ⟨(hl q hq).1, by simp only [cutValue]; omega⟩)
    rw [b64Settings_text hl, hrun]
    constructor
    · rintro ⟨hp2, h, hu2⟩ p hp
      cases h
      have hmap : l.map cutValue = l := List.append_cancel_left (hu.log.symm.trans hu2.log)
      have hcut : cutValue p = p := by
        rw [← List.map_id l, List.map_map] at hmap
        exact List.map_inj_left.mp hmap p hp
      have hmod : p.2 % 2 ^ 16 = p.2 := congrArg Prod.snd hcut
      omega
    · intro h
      have hmap : l.map cutValue = l := by
        refine (List.map_congr_left fun p hp => ?_).trans (List.map_id l)
        rw [cutValue, Nat.mod_eq_of_lt (h p hp)]
        rfl
      rw [hmap] at hu
      exact ⟨hp', rfl, hu⟩
  · intro s hs
    refine b64Loop_refused _ s hp (Nat.lt_succ_self _) fun hw => ?_
    rcases hs with ⟨c, hc, hno⟩ | hlen
    · exact hno (hw.1 c hc)
    · exact hlen hw.2

/-- A table size of 4096 and no priorities. -/
theorem b64_settings_inverts_4096 :
    ∃ hp', b64Settings ⟨true, hpkNewCtx 4096, hpkNewCtx 4096, 0, []⟩
        (base64url ([(1, 4096), (9, 1)].flatMap pairBytes)) = .ok hp' ∧
      Upgraded ⟨true, hpkNewCtx 4096, hpkNewCtx 4096, 0, []⟩ [(1, 4096), (9, 1)] hp' :=
  (b64_settings_inverts_iff ⟨true, hpkNewCtx 4096, hpkNewCtx 4096, 0, []⟩ (by decide)).1.mpr
    (by decide)

/-- `AAEAAQAA`, a table size of 65536, is taken for one of 0. -/
theorem b64_value_cut :
    base64url (pairBytes (1, 65536)) = ascii "AAEAAQAA" ∧
      b64Settings ⟨true, hpkNewCtx 4096, hpkNewCtx 4096, 0, []⟩ (ascii "AAEAAQAA") =
        .ok ⟨true, hpkNewCtx 0, hpkNewCtx 4096, 0, [(1, 0)]⟩ := by
  refine ⟨by decide, ?_⟩
  have hword : b64Word 8 0 (ascii "AAEAAQAA") = .ok (0x100010000, []) := by decide
  have hloop : b64Settings ⟨true, hpkNewCtx 4096, hpkNewCtx 4096, 0, []⟩ (ascii "AAEAAQAA") =
      b64Word 8 0 (ascii "AAEAAQAA") >>= fun r =>
        b64Apply ⟨true, hpkNewCtx 4096, hpkNewCtx 4096, 0, []⟩ (r.1 >>> 32).toUInt16
          (r.1 &&& 0xffff) >>= fun hp => b64Loop 8 r.2 hp := rfl
  rw [hloop, hword]
  rfl

end Http2
end VTest
