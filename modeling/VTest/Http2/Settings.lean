import VTest.Http1.Rx
import VTest.Http2.RxLoop
import VTest.Script.Parse

/-!
# VTest.Http2.Settings

`SETTINGS` frames from the arguments of `txsettings` to the variables `settings.NAME`:
`cmd_txsettings` puts the payload together in an array on the stack, `parse_settings` stores the
values as they come, and `RETURN_SETTINGS` prints them.

* `Heads.filled`: what has been written when the loop over the arguments is at its head again.
* `settings_cursor_bounded_iff`: the loop has no bound of its own; 85 settings fit.
* `settings_survive_iff`: a value goes through an `int`, so the upper half comes out negative.
-/

namespace VTest
namespace Http2

open Hpack

/-! ## Sending -/

/-- `STRTOU32`. -/
def strtou32 (s : Bytes) : Res Nat := do
  let (v, p) := strtoul 0 s
  fatalIf (!p.isEmpty)
  return v % 2 ^ 32

/-- The options that put a setting into the frame. `raw` has the text behind `-0x`. -/
inductive SetKey where
  | push
  | hdrtbl
  | maxstreams
  | winsize
  | framesize
  | hdrsize
  | raw (p : Bytes)
  deriving DecidableEq, Repr

inductive SetArg where
  | kv (k : SetKey)
  | ack
  deriving DecidableEq, Repr

def setArg? (a : Bytes) : Option SetArg :=
  if a = ascii "-push" then some (.kv .push)
  else if a = ascii "-hdrtbl" then some (.kv .hdrtbl)
  else if a = ascii "-maxstreams" then some (.kv .maxstreams)
  else if a = ascii "-winsize" then some (.kv .winsize)
  else if a = ascii "-framesize" then some (.kv .framesize)
  else if a = ascii "-hdrsize" then some (.kv .hdrsize)
  else if a.take 3 = ascii "-0x" then some (.kv (.raw (a.drop 3)))
  else if a = ascii "-ack" then some .ack
  else none

/-- The tag of the setting. -/
def SetKey.tag : SetKey → Res Nat
  | .push => .ok 0x2
  | .hdrtbl => .ok 0x1
  | .maxstreams => .ok 0x3
  | .winsize => .ok 0x4
  | .framesize => .ok 0x5
  | .hdrsize => .ok 0x6
  | .raw p => do
    let (u, e) := strtoul 16 p
    fatalIf (p.isEmpty || !e.isEmpty || 0xffff < u)
    return u

/-- The value that the argument of an option stands for. -/
def SetKey.value (k : SetKey) (v : Bytes) : Res Nat :=
  match k with
  | .push =>
    if v = ascii "false" then .ok 0 else if v = ascii "true" then .ok 1 else .error .fatal
  | _ => strtou32 v

/-- The variables of `cmd_txsettings`, and what the options change besides. `mem` is the stack from
`buf` on. -/
structure TxSettings where
  dec : HpkCtx
  win : WinEnd
  mem : Bytes
  cursor : Nat := 0
  size : Nat := 0
  flags : UInt8 := 0

/-- The size of `buf`. -/
def settingsBuf : Nat := 512

/-- Before the loop, with `above` behind `buf`. -/
def TxSettings.start (dec : HpkCtx) (win : WinEnd) (above : Bytes) : TxSettings where
  dec := dec
  win := win
  mem := List.replicate settingsBuf 0 ++ above

/-- `PUT_KV`, with the value. -/
def TxSettings.putKv (t : TxSettings) (code val : Nat) : Res TxSettings := do
  let mem ← poke t.mem t.cursor (vbe16enc code)
  let mem ← poke mem (t.cursor + 2) (vbe32enc val)
  return { t with mem := mem, cursor := t.cursor + 6, size := t.size + 6 }

def TxSettings.put (t : TxSettings) (k : SetKey) (code : Nat) (v : Bytes) : Res TxSettings :=
  match k with
  | .push => do
    -- the tag is written before the argument is looked at
    let mem ← poke t.mem t.cursor (vbe16enc code)
    let val ← SetKey.push.value v
    let mem ← poke mem (t.cursor + 2) (vbe32enc val)
    return { t with mem := mem, cursor := t.cursor + 6, size := t.size + 6 }
  | .hdrtbl => do
    let val ← strtou32 v
    let t ← t.putKv code val
    let dec ← hpkResizeTbl t.dec (UInt32.ofNat val)
    return { t with dec := dec }
  | .winsize => do
    let val ← strtou32 v
    let t ← t.putKv code val
    return { t with win := t.win.setSelfInit val }
  | _ => do
    let val ← strtou32 v
    t.putKv code val

/-- A turn of the loop at the argument `a`: the arguments behind the option, or `none` if the loop
is left here. Only `-push` takes its argument without looking whether there is one. -/
def settingsTurn (a : Bytes) (av : List Bytes) (t : TxSettings) :
    Res (Option (List Bytes × TxSettings)) :=
  match setArg? a with
  | none => .ok none
  | some .ack => .ok (some (av, { t with flags := t.flags ||| flagAck }))
  | some (.kv k) => do
    let code ← k.tag
    match av with
    | [] => .error (if k = .push then .ub else .assert)
    | v :: av => do
      let t ← t.put k code v
      return some (av, t)

/-- Every turn takes an argument, so their number is enough fuel. -/
def settingsLoop : Nat → List Bytes → TxSettings → Res (List Bytes × TxSettings)
  | 0, _, _ => .error .fuel
  | _ + 1, [], t => .ok ([], t)
  | fuel + 1, a :: av, t => do
    match ← settingsTurn a av t with
    | none => return (a :: av, t)
    | some (av, t) => settingsLoop fuel av t

/-- `txsettings` on stream `id`: the frame that `write_frame` is called with. -/
def cmdTxsettings (id : Nat) (dec : HpkCtx) (win : WinEnd) (av : List Bytes) :
    Res (TxSettings × Frame) := do
  let (av, t) ← settingsLoop (av.length + 1) av (TxSettings.start dec win [])
  fatalIf (!av.isEmpty)
  return (t, {
    size := t.size
    stid := id
    type := typeSettings
    flags := t.flags
    data := t.mem.take t.size })

/-! ## Receiving -/

/-- The largest tag is 0x10. -/
def settingsMax : Nat := 0x11

/-- `md.settings`, where `none` is `NAN`. The numbers are those of an `int`, which a `double` can
represent. -/
abbrev SettingsMd := Nat → Option Int

/-- A turn of the loop of `parse_settings`. -/
def storeSetting (s : SettingsMd × HpkCtx) (p : Nat × Nat) : Res (SettingsMd × HpkCtx) := do
  let v := toInt32 p.2
  let md := if p.1 ≤ settingsMax then Function.update s.1 p.1 (some v) else s.1
  let enc ← if p.1 = 0x1 then hpkResizeTbl s.2 (UInt32.ofInt v) else .ok s.2
  return (md, enc)

/-- `parse_settings` on stream `id`, with the table of the encoder. -/
def parseSettingsMd (id : Nat) (enc : HpkCtx) (f : Frame) : Res (SettingsMd × HpkCtx) := do
  fatalIf (f.size % 6 ≠ 0)
  fatalIf (id ≠ 0)
  (settingsOf f.data).foldlM storeSetting (fun _ => none, enc)

/-- `RETURN_SETTINGS`. -/
def returnSettings (md : SettingsMd) (idx : Nat) : Option Bytes := (md idx).map Http1.decimalInt

/-- The variables `settings.NAME`; `none` if there is no such name. -/
def settingsVar (flags : UInt8) (md : SettingsMd) (name : Bytes) : Option (Option Bytes) :=
  if name = ascii "ack" then
    some (some (if flags &&& flagAck ≠ 0 then ascii "true" else ascii "false"))
  else if name = ascii "push" then
    some ((md 0x2).map fun v => if v = 1 then ascii "true" else ascii "false")
  else if name = ascii "hdrtbl" then some (returnSettings md 1)
  else if name = ascii "maxstreams" then some (returnSettings md 3)
  else if name = ascii "winsize" then some (returnSettings md 4)
  else if name = ascii "framesize" then some (returnSettings md 5)
  else if name = ascii "hdrsize" then some (returnSettings md 6)
  else none

/-! ## What the arguments ask for -/

/-- The settings that the options ask for, up to the first argument that is not accepted. -/
def askedPairs : List Bytes → List (Nat × Nat)
  | [] => []
  | a :: av =>
    match setArg? a with
    | none => []
    | some .ack => askedPairs av
    | some (.kv k) =>
      match k.tag, av with
      | .ok code, v :: av =>
        match k.value v with
        | .ok val => (code, val) :: askedPairs av
        | .error _ => []
      | _, _ => []

def pairBytes (p : Nat × Nat) : Bytes := vbe16enc p.1 ++ vbe32enc p.2

@[simp] theorem length_pairBytes (p : Nat × Nat) : (pairBytes p).length = 6 := rfl

/-! ## One setting -/

/-- The settings `l` have been put into the frame between `t` and `t'`. -/
structure Filled (t : TxSettings) (l : List (Nat × Nat)) (t' : TxSettings) : Prop where
  cursor : t'.cursor = t.cursor + 6 * l.length
  size : t'.size = t.size + 6 * l.length
  length : t'.mem.length = t.mem.length
  bytes : t.cursor ≤ t.mem.length → t'.cursor ≤ t'.mem.length ∧
    t'.mem.take t'.cursor = t.mem.take t.cursor ++ l.flatMap pairBytes

theorem Filled.refl (t : TxSettings) : Filled t [] t where
  cursor := rfl
  size := rfl
  length := rfl
  bytes h := ⟨h, by simp⟩

theorem Filled.trans {t t' t'' : TxSettings} {l l' : List (Nat × Nat)} (h : Filled t l t')
    (h' : Filled t' l' t'') : Filled t (l ++ l') t'' where
  cursor := by rw [h'.cursor, h.cursor, List.length_append]; omega
  size := by rw [h'.size, h.size, List.length_append]; omega
  length := h'.length.trans h.length
  bytes hle := by
    obtain ⟨h1, hb⟩ := h.bytes hle
    obtain ⟨h2, hb'⟩ := h'.bytes h1
    refine ⟨h2, ?_⟩
    rw [hb', hb, List.flatMap_append, List.append_assoc]

/-- The two writes of a setting. -/
theorem filled_of_pokes {t t' : TxSettings} {code val : Nat} {m m' : Bytes}
    (h1 : poke t.mem t.cursor (vbe16enc code) = .ok m)
    (h2 : poke m (t.cursor + 2) (vbe32enc val) = .ok m')
    (hm : t'.mem = m') (hc : t'.cursor = t.cursor + 6) (hs : t'.size = t.size + 6) :
    Filled t [(code, val)] t' := by
  obtain ⟨hle1, rfl⟩ := poke_eq_ok h1
  obtain ⟨hle2, rfl⟩ := poke_eq_ok h2
  have hput : t'.mem = put t.mem t.cursor (pairBytes (code, val)) := by
    rw [hm]
    exact put_put hle1
  rw [length_put hle1] at hle2
  have hroom : t.cursor + (pairBytes (code, val)).length ≤ t.mem.length := hle2
  refine ⟨hc, hs, by rw [hput, length_put hroom], fun hle => ⟨?_, ?_⟩⟩
  · rw [hc, hput, length_put hroom]
    exact hroom
  · have htake := take_put (b := pairBytes (code, val)) hle
    rw [hc, hput, List.flatMap_singleton]
    exact htake

theorem TxSettings.putKv_eq_ok {t t' : TxSettings} {code val : Nat}
    (h : t.putKv code val = .ok t') : Filled t [(code, val)] t' := by
  obtain ⟨m, h1, h⟩ := bind_eq_ok.mp h
  obtain ⟨m', h2, h⟩ := bind_eq_ok.mp h
  cases h
  exact filled_of_pokes h1 h2 rfl rfl rfl

/-- An option that is accepted puts its setting into the frame. -/
theorem TxSettings.put_eq_ok {t t' : TxSettings} {k : SetKey} {code : Nat} {v : Bytes}
    (h : t.put k code v = .ok t') :
    ∃ val, k.value v = .ok val ∧ Filled t [(code, val)] t' := by
  cases k with
  | push =>
    obtain ⟨m, h1, h⟩ := bind_eq_ok.mp h
    obtain ⟨val, hval, h⟩ := bind_eq_ok.mp h
    obtain ⟨m', h2, h⟩ := bind_eq_ok.mp h
    cases h
    exact ⟨val, hval, filled_of_pokes h1 h2 rfl rfl rfl⟩
  | hdrtbl =>
    obtain ⟨val, hval, h⟩ := bind_eq_ok.mp h
    obtain ⟨t1, h1, h⟩ := bind_eq_ok.mp h
    obtain ⟨dec, -, h⟩ := bind_eq_ok.mp h
    cases h
    have hf := TxSettings.putKv_eq_ok h1
    exact ⟨val, hval, hf.cursor, hf.size, hf.length, hf.bytes⟩
  | winsize =>
    obtain ⟨val, hval, h⟩ := bind_eq_ok.mp h
    obtain ⟨t1, h1, h⟩ := bind_eq_ok.mp h
    cases h
    have hf := TxSettings.putKv_eq_ok h1
    exact ⟨val, hval, hf.cursor, hf.size, hf.length, hf.bytes⟩
  | maxstreams | framesize | hdrsize | raw p =>
    obtain ⟨val, hval, h⟩ := bind_eq_ok.mp h
    exact ⟨val, hval, TxSettings.putKv_eq_ok h⟩

theorem putKv_total {t : TxSettings} (code val : Nat) (hroom : t.cursor + 6 ≤ t.mem.length) :
    ∃ t', t.putKv code val = .ok t' := by
  have h1 : t.cursor + (vbe16enc code).length ≤ t.mem.length := by
    rw [length_vbe16enc]
    omega
  have h2 : t.cursor + 2 + (vbe32enc val).length ≤
      (put t.mem t.cursor (vbe16enc code)).length := by
    rw [length_put h1, length_vbe32enc]
    omega
  rw [TxSettings.putKv, poke_of_le h1, ok_bind, poke_of_le h2]
  exact ⟨_, rfl⟩

theorem put_total {t : TxSettings} {k : SetKey} {v : Bytes} {val : Nat} (code : Nat)
    (hval : k.value v = .ok val) (hroom : t.cursor + 6 ≤ t.mem.length) :
    ∃ t', t.put k code v = .ok t' := by
  obtain ⟨t1, h1⟩ := putKv_total code val hroom
  cases k with
  | push =>
    obtain ⟨m, h2, h⟩ := bind_eq_ok.mp h1
    obtain ⟨m', h3, -⟩ := bind_eq_ok.mp h
    rw [TxSettings.put, h2, ok_bind, hval, ok_bind, h3]
    exact ⟨_, rfl⟩
  | hdrtbl =>
    obtain ⟨dec, hdec, -⟩ := hpkResizeTbl_total t1.dec (UInt32.ofNat val)
    rw [TxSettings.put, show strtou32 v = _ from hval, ok_bind, h1, ok_bind, hdec]
    exact ⟨_, rfl⟩
  | winsize =>
    rw [TxSettings.put, show strtou32 v = _ from hval, ok_bind, h1]
    exact ⟨_, rfl⟩
  | maxstreams | framesize | hdrsize | raw p =>
    rw [TxSettings.put, show strtou32 v = _ from hval, ok_bind, h1]
    · exact ⟨_, rfl⟩
    all_goals exact nofun

theorem putKv_overrun {t : TxSettings} (code val : Nat) (hroom : t.mem.length < t.cursor + 6) :
    t.putKv code val = .error .ub := by
  rw [TxSettings.putKv]
  cases h1 : poke t.mem t.cursor (vbe16enc code) with
  | error e =>
    rw [poke] at h1
    split at h1
    · cases h1
    · cases h1
      rfl
  | ok m =>
    obtain ⟨hle, rfl⟩ := poke_eq_ok h1
    rw [ok_bind, poke, if_neg]
    · rfl
    · rw [length_put hle, length_vbe32enc]
      omega

theorem put_overrun {t : TxSettings} {k : SetKey} {v : Bytes} {val : Nat} (code : Nat)
    (hval : k.value v = .ok val) (hroom : t.mem.length < t.cursor + 6) :
    t.put k code v = .error .ub := by
  have h1 := putKv_overrun code val hroom
  cases k with
  | push =>
    rw [TxSettings.putKv] at h1
    rw [TxSettings.put]
    cases h2 : poke t.mem t.cursor (vbe16enc code) with
    | error e =>
      rw [h2] at h1
      exact h1
    | ok m =>
      rw [h2, ok_bind] at h1
      rw [ok_bind, hval, ok_bind]
      exact h1
  | hdrtbl | winsize => rw [TxSettings.put, show strtou32 v = _ from hval, ok_bind, h1, error_bind]
  | maxstreams | framesize | hdrsize | raw p =>
    rw [TxSettings.put, show strtou32 v = _ from hval, ok_bind, h1]
    all_goals exact nofun

/-! ## Turns -/

/-- A turn takes an option and its argument: `-ack` without a setting, or a setting. -/
theorem settingsTurn_eq_some {a : Bytes} {av av' : List Bytes} {t t' : TxSettings}
    (h : settingsTurn a av t = .ok (some (av', t'))) :
    ∃ l, askedPairs (a :: av) = l ++ askedPairs av' ∧ Filled t l t' ∧
      av'.length < (a :: av).length := by
  rw [settingsTurn] at h
  rw [askedPairs]
  cases ha : setArg? a with
  | none =>
    rw [ha] at h
    cases h
  | some o =>
    rw [ha] at h
    cases o with
    | ack =>
      cases h
      exact ⟨[], rfl, ⟨rfl, rfl, rfl, (Filled.refl t).bytes⟩, by simp⟩
    | kv k =>
      obtain ⟨code, hcode, h⟩ := bind_eq_ok.mp h
      cases av with
      | nil => cases h
      | cons v av =>
        obtain ⟨t1, h1, h⟩ := bind_eq_ok.mp h
        cases h
        obtain ⟨val, hval, hf⟩ := TxSettings.put_eq_ok h1
        exact ⟨[(code, val)], by simp [hcode, hval], hf, by simp⟩

/-- Where the loop is left, no setting is asked for. -/
theorem askedPairs_of_turn_none {a : Bytes} {av : List Bytes} {t : TxSettings}
    (h : settingsTurn a av t = .ok none) : askedPairs (a :: av) = [] := by
  rw [settingsTurn] at h
  rw [askedPairs]
  cases ha : setArg? a with
  | none => rfl
  | some o =>
    rw [ha] at h
    cases o with
    | ack => cases h
    | kv k =>
      obtain ⟨code, hcode, h⟩ := bind_eq_ok.mp h
      cases av with
      | nil => cases h
      | cons v av =>
        obtain ⟨t1, h1, h⟩ := bind_eq_ok.mp h
        cases h

/-- At a head where a setting is asked for, there is an `-ack` or the first setting. -/
theorem asked_cases {a : Bytes} {av : List Bytes} (hne : askedPairs (a :: av) ≠ []) :
    setArg? a = some .ack ∨ ∃ k code v av' val, setArg? a = some (.kv k) ∧ k.tag = .ok code ∧
      av = v :: av' ∧ k.value v = .ok val := by
  rw [askedPairs] at hne
  split at hne
  · exact absurd rfl hne
  · rename_i ha
    exact .inl ha
  · rename_i k ha
    split at hne
    · rename_i code v av' hcode
      split at hne
      · rename_i val hval
        exact .inr ⟨k, code, v, av', val, ha, hcode, rfl, hval⟩
      · exact absurd rfl hne
    · exact absurd rfl hne

/-- With room for it, the turn of a setting that is asked for goes through. -/
theorem settingsTurn_total {a : Bytes} {av : List Bytes} {t : TxSettings}
    (hne : askedPairs (a :: av) ≠ []) (hroom : t.cursor + 6 ≤ t.mem.length) :
    ∃ av' t', settingsTurn a av t = .ok (some (av', t')) := by
  rw [settingsTurn]
  rcases asked_cases hne with ha | ⟨k, code, v, av', val, ha, hcode, rfl, hval⟩
  · rw [ha]
    exact ⟨_, _, rfl⟩
  · obtain ⟨t', ht'⟩ := put_total code hval hroom
    refine ⟨av', t', ?_⟩
    simp only [ha, hcode, ok_bind, ht', pure_res]

/-- Without room for it, that turn writes outside of the memory, if it is not an `-ack`. -/
theorem settingsTurn_overrun {a : Bytes} {av : List Bytes} {t : TxSettings}
    (hne : askedPairs (a :: av) ≠ []) (hroom : t.mem.length < t.cursor + 6) :
    settingsTurn a av t = .error .ub ∨
      ∃ av' t', settingsTurn a av t = .ok (some (av', t')) := by
  rw [settingsTurn]
  rcases asked_cases hne with ha | ⟨k, code, v, av', val, ha, hcode, rfl, hval⟩
  · rw [ha]
    exact .inr ⟨_, _, rfl⟩
  · left
    simp only [ha, hcode, ok_bind, put_overrun code hval hroom, error_bind]

/-! ## Runs -/

/-- The loop comes to its head with the arguments `av'` and the state `t'`. -/
inductive Heads (av : List Bytes) (t : TxSettings) : List Bytes → TxSettings → Prop where
  | start : Heads av t av t
  | turn {a : Bytes} {av1 av2 : List Bytes} {t1 t2 : TxSettings} (h : Heads av t (a :: av1) t1)
      (ht : settingsTurn a av1 t1 = .ok (some (av2, t2))) : Heads av t av2 t2

theorem Heads.filled {av av' : List Bytes} {t t' : TxSettings} (h : Heads av t av' t') :
    ∃ l, askedPairs av = l ++ askedPairs av' ∧ Filled t l t' := by
  induction h with
  | start => exact ⟨[], rfl, .refl t⟩
  | turn _ ht ih =>
    obtain ⟨l, hl, hf⟩ := ih
    obtain ⟨l', hl', hf', -⟩ := settingsTurn_eq_some ht
    exact ⟨l ++ l', by rw [hl, hl', List.append_assoc], hf.trans hf'⟩

theorem Heads.head {a : Bytes} {av av1 av2 : List Bytes} {t t1 t2 : TxSettings}
    (ht : settingsTurn a av t = .ok (some (av1, t1))) (h : Heads av1 t1 av2 t2) :
    Heads (a :: av) t av2 t2 := by
  induction h with
  | start => exact .turn .start ht
  | turn _ ht' ih => exact .turn ih ht'

/-- With room for them, the loop goes on to behind all settings that are asked for. -/
theorem heads_total (n : Nat) : ∀ (av : List Bytes) (t : TxSettings), av.length ≤ n →
    t.cursor + 6 * (askedPairs av).length ≤ t.mem.length →
    ∃ av' t', Heads av t av' t' ∧ askedPairs av' = [] := by
  induction n with
  | zero =>
    intro av t hn _
    rw [Nat.le_zero, List.length_eq_zero_iff] at hn
    subst hn
    exact ⟨[], t, .start, rfl⟩
  | succ n ih =>
    intro av t hn hroom
    by_cases hnil : askedPairs av = []
    · exact ⟨av, t, .start, hnil⟩
    · cases av with
      | nil => exact absurd rfl hnil
      | cons a av =>
        have hpos := List.length_pos_iff.mpr hnil
        obtain ⟨av1, t1, ht⟩ := settingsTurn_total hnil (t := t) (by omega)
        obtain ⟨l, hl, hf, hlt⟩ := settingsTurn_eq_some ht
        have hroom' : t1.cursor + 6 * (askedPairs av1).length ≤ t1.mem.length := by
          rw [hl, List.length_append] at hroom
          rw [hf.cursor, hf.length]
          omega
        obtain ⟨av2, t2, h, hend⟩ := ih av1 t1 (by omega) hroom'
        exact ⟨av2, t2, .head ht h, hend⟩

/-- Without room for them, the loop writes outside of the memory. -/
theorem settingsLoop_overrun : ∀ {fuel : Nat} {av : List Bytes} {t : TxSettings},
    av.length < fuel → t.cursor ≤ t.mem.length →
    t.mem.length < t.cursor + 6 * (askedPairs av).length →
    settingsLoop fuel av t = .error .ub := by
  intro fuel
  induction fuel with
  | zero => intro av t h; omega
  | succ fuel ih =>
    intro av t hfuel hle hroom
    have hne : askedPairs av ≠ [] := by
      intro h
      rw [h, List.length_nil] at hroom
      omega
    cases av with
    | nil => exact absurd rfl hne
    | cons a av =>
      have hturn : settingsTurn a av t = .error .ub ∨
          ∃ av' t', settingsTurn a av t = .ok (some (av', t')) := by
        by_cases h6 : t.cursor + 6 ≤ t.mem.length
        · exact .inr (settingsTurn_total hne h6)
        · exact settingsTurn_overrun hne (by omega)
      rcases hturn with hub | ⟨av', t', ht⟩
      · rw [settingsLoop, hub, error_bind]
      · obtain ⟨l, hl, hf, hlt⟩ := settingsTurn_eq_some ht
        rw [settingsLoop, ht, ok_bind]
        refine ih (by omega) (hf.bytes hle).1 ?_
        rw [hl, List.length_append] at hroom
        rw [hf.cursor, hf.length]
        omega

/-- The loop ends at a head where nothing is asked for any more. -/
theorem settingsLoop_eq_ok : ∀ {fuel : Nat} {av av' : List Bytes} {t t' : TxSettings},
    settingsLoop fuel av t = .ok (av', t') → Heads av t av' t' ∧ askedPairs av' = [] := by
  intro fuel
  induction fuel with
  | zero =>
    intro av av' t t' h
    cases h
  | succ fuel ih =>
    intro av av' t t' h
    cases av with
    | nil =>
      cases h
      exact ⟨.start, rfl⟩
    | cons a av =>
      obtain ⟨r, hr, h⟩ := bind_eq_ok.mp h
      cases r with
      | none =>
        cases h
        exact ⟨.start, askedPairs_of_turn_none hr⟩
      | some p =>
        obtain ⟨hh, hend⟩ := ih h
        exact ⟨.head hr hh, hend⟩

/-! ## The buffer -/

theorem cursor_start (dec : HpkCtx) (win : WinEnd) (above : Bytes) :
    (TxSettings.start dec win above).cursor = 0 ∧ (TxSettings.start dec win above).size = 0 :=
  ⟨rfl, rfl⟩

/-- The cursor runs out of `buf` with the first setting that does not fit. -/
theorem cursor_overruns {av : List Bytes} (h : 85 < (askedPairs av).length) (dec : HpkCtx)
    (win : WinEnd) {above : Bytes} (hroom : 6 * (askedPairs av).length ≤ above.length) :
    ∃ av' t, Heads av (TxSettings.start dec win above) av' t ∧ settingsBuf < t.cursor := by
  have hlen : (TxSettings.start dec win above).mem.length = settingsBuf + above.length := by
    simp [TxSettings.start]
  obtain ⟨av', t, hh, hend⟩ := heads_total av.length av (TxSettings.start dec win above)
    (Nat.le_refl _) (by rw [hlen, (cursor_start dec win above).1]; omega)
  obtain ⟨l, hl, hf⟩ := hh.filled
  rw [hend, List.append_nil] at hl
  refine ⟨av', t, hh, ?_⟩
  rw [hf.cursor, (cursor_start dec win above).1, ← hl, settingsBuf]
  omega

theorem cmdTxsettings_overrun {av : List Bytes} (h : 85 < (askedPairs av).length) (id : Nat)
    (dec : HpkCtx) (win : WinEnd) : cmdTxsettings id dec win av = .error .ub := by
  have hlen : (TxSettings.start dec win []).mem.length = settingsBuf := by
    simp [TxSettings.start]
  have hloop := settingsLoop_overrun (t := TxSettings.start dec win []) (Nat.lt_succ_self av.length)
    (Nat.zero_le _) (by rw [hlen, (cursor_start dec win []).1, settingsBuf]; omega)
  rw [cmdTxsettings, hloop, error_bind]

theorem settings_cursor_bounded_iff (dec : HpkCtx) (win : WinEnd) (av : List Bytes) :
    (∀ above av' t, Heads av (TxSettings.start dec win above) av' t →
      t.size = t.cursor ∧ t.cursor ≤ settingsBuf) ↔ (askedPairs av).length ≤ 85 := by
  constructor
  · intro h
    by_contra hgt
    have hroom : 6 * (askedPairs av).length ≤
        (List.replicate (6 * (askedPairs av).length) (0 : UInt8)).length := by simp
    obtain ⟨av', t, hh, hlt⟩ := cursor_overruns (Nat.lt_of_not_le hgt) dec win hroom
    have := (h _ _ _ hh).2
    omega
  · intro hle above av' t hh
    obtain ⟨l, hl, hf⟩ := hh.filled
    have hlen : l.length ≤ (askedPairs av).length := by
      rw [hl, List.length_append]
      omega
    obtain ⟨hc, hs⟩ := cursor_start dec win above
    refine ⟨by rw [hf.size, hf.cursor, hc, hs], ?_⟩
    rw [hf.cursor, hc, settingsBuf]
    omega

theorem askedPairs_hdrsize (n : Nat) :
    askedPairs (List.replicate n [ascii "-hdrsize", ascii "1"]).flatten =
      List.replicate n (6, 1) := by
  have hone : ∀ av, askedPairs (ascii "-hdrsize" :: ascii "1" :: av) = (6, 1) :: askedPairs av :=
    fun _ => rfl
  induction n with
  | zero => rfl
  | succ n ih =>
    rw [List.replicate_succ, List.flatten_cons, List.replicate_succ, ← ih]
    exact hone _

/-- 86 settings are 172 arguments, which `parse_string` lets through. -/
theorem settings_cursor_overruns :
    let av := (List.replicate 86 [ascii "-hdrsize", ascii "1"]).flatten
    av.length + 1 < Script.maxTokens ∧
      cmdTxsettings 0 (hpkNewCtx 4096) {} av = .error .ub ∧
      ∃ av' t, Heads av (TxSettings.start (hpkNewCtx 4096) {} (List.replicate 516 0)) av' t ∧
        settingsBuf < t.cursor := by
  have hlen :
      (askedPairs (List.replicate 86 [ascii "-hdrsize", ascii "1"]).flatten).length = 86 := by
    rw [askedPairs_hdrsize, List.length_replicate]
  refine ⟨?_, cmdTxsettings_overrun (by omega) _ _ _, cursor_overruns (by omega) _ _ ?_⟩
  · rw [List.length_flatten, List.map_replicate, List.sum_replicate, Script.maxTokens]
    decide
  · rw [hlen, List.length_replicate]

/-! ## Values -/

theorem SetKey.value_lt {k : SetKey} {v : Bytes} {val : Nat} (h : k.value v = .ok val) :
    val < 2 ^ 32 := by
  have hnum : ∀ {n}, strtou32 v = .ok n → n < 2 ^ 32 := by
    intro n hn
    obtain ⟨-, hn⟩ := fatalIf_bind_eq_ok.mp hn
    cases hn
    exact Nat.mod_lt _ (by decide)
  cases k with
  | push =>
    rw [SetKey.value] at h
    split at h
    · cases h
      decide
    · split at h
      · cases h
        decide
      · cases h
  | hdrtbl | maxstreams | winsize | framesize | hdrsize | raw p => exact hnum h

theorem SetKey.tag_lt {k : SetKey} {code : Nat} (h : k.tag = .ok code) : code < 2 ^ 16 := by
  cases k with
  | raw p =>
    rw [SetKey.tag] at h
    generalize strtoul 16 p = r at h
    obtain ⟨hle, h⟩ := fatalIf_bind_eq_ok.mp h
    cases h
    simp only [Bool.or_eq_false_iff, decide_eq_false_iff_not] at hle
    omega
  | push | hdrtbl | maxstreams | winsize | framesize | hdrsize =>
    cases h
    decide

theorem mem_askedPairs {p : Nat × Nat} : ∀ {av : List Bytes}, p ∈ askedPairs av →
    p.1 < 2 ^ 16 ∧ p.2 < 2 ^ 32 := by
  intro av
  fun_induction askedPairs av with
  | case1 => intro h; cases h
  | case2 => intro h; cases h
  | case3 _ _ _ ih => exact ih
  | case4 a v av k ha code hcode val hval ih =>
    intro h
    rcases List.mem_cons.mp h with rfl | h
    · exact ⟨SetKey.tag_lt hcode, SetKey.value_lt hval⟩
    · exact ih h
  | case5 => intro h; cases h
  | case6 => intro h; cases h

/-- The payload of the frame is the settings that were asked for. -/
theorem cmdTxsettings_frame {id : Nat} {dec : HpkCtx} {win : WinEnd} {av : List Bytes}
    {t : TxSettings} {f : Frame} (h : cmdTxsettings id dec win av = .ok (t, f)) :
    f.size = 6 * (askedPairs av).length ∧ f.data = (askedPairs av).flatMap pairBytes := by
  obtain ⟨⟨av', t'⟩, hloop, h⟩ := bind_eq_ok.mp h
  obtain ⟨-, h⟩ := fatalIf_bind_eq_ok.mp h
  cases h
  obtain ⟨hh, hend⟩ := settingsLoop_eq_ok hloop
  obtain ⟨l, hl, hf⟩ := hh.filled
  rw [hend, List.append_nil] at hl
  obtain ⟨hc, hs⟩ := cursor_start dec win []
  obtain ⟨-, hbytes⟩ := hf.bytes (by rw [hc]; exact Nat.zero_le _)
  have hsize : t.size = t.cursor := by rw [hf.size, hf.cursor, hc, hs]
  constructor
  · show t.size = _
    rw [hf.size, hs, hl, Nat.zero_add]
  · show t.mem.take t.size = _
    rw [hsize, hbytes, hc, hl]
    rfl

theorem settingsOf_pairs {l : List (Nat × Nat)} (h : ∀ p ∈ l, p.1 < 2 ^ 16 ∧ p.2 < 2 ^ 32) :
    settingsOf (l.flatMap pairBytes) = l := by
  have hraw : settingsData (l.map fun p => .raw p.1 p.2) = l.flatMap pairBytes := by
    rw [settingsData, List.flatMap_map]
    rfl
  rw [← hraw, settingsOf_data]
  · rw [List.map_map]
    exact List.map_id l
  · intro o ho
    obtain ⟨p, hp, rfl⟩ := List.mem_map.mp ho
    exact h p hp

theorem ofInt_toInt32 (n : Nat) : UInt32.ofInt (toInt32 n) = UInt32.ofNat n := by
  apply UInt32.toNat_inj.mp
  rw [toInt32]
  split
  · simp only [UInt32.ofInt, UInt32.toNat_ofNat']
    omega
  · simp only [UInt32.ofInt, UInt32.toNat_ofNat']
    omega

/-- Every value overwrites the one before it. -/
theorem storeSettings_spec (enc : HpkCtx) (l : List (Nat × Nat)) :
    ∃ md enc', l.foldlM storeSetting (fun _ => none, enc) = .ok (md, enc') ∧
      (∀ idx ≤ settingsMax, md idx = (lastSetting idx l).map toInt32) ∧
      enc'.maxsize = (lastSetting 1 l).elim enc.maxsize UInt32.ofNat := by
  induction l using List.reverseRecOn with
  | nil => exact ⟨fun _ => none, enc, rfl, fun _ _ => rfl, rfl⟩
  | append_singleton l p ih =>
    obtain ⟨md, enc', hrun, hmd, hmax⟩ := ih
    obtain ⟨c, hc, hcmax⟩ := hpkResizeTbl_total enc' (UInt32.ofNat p.2)
    have hstep : storeSetting (md, enc') p =
        .ok (if p.1 ≤ settingsMax then Function.update md p.1 (some (toInt32 p.2)) else md,
          if p.1 = 1 then c else enc') := by
      rw [storeSetting]
      by_cases h1 : p.1 = 1
      · simp only [h1, if_true, ofInt_toInt32, hc, ok_bind, pure_res]
      · simp only [h1, if_false, ok_bind, pure_res]
    refine ⟨_, _, by rw [List.foldlM_append, hrun, ok_bind, List.foldlM_cons, hstep]; rfl,
      fun idx hidx => ?_, ?_⟩
    · rw [lastSetting_append]
      by_cases hp : p.1 = idx
      · subst hp
        simp [hidx]
      · rw [if_neg hp]
        split
        · rw [Function.update_of_ne (Ne.symm hp), hmd idx hidx]
        · exact hmd idx hidx
    · rw [lastSetting_append]
      by_cases hp : p.1 = 1
      · rw [if_pos hp, if_pos hp, hcmax]
        rfl
      · rw [if_neg hp, if_neg hp, hmax]

/-- The table of the encoder is the one that `receive_frame` goes on with. -/
theorem parseSettings_eq (r : Rx) (f : Frame) : ∃ md,
    parseSettingsMd f.stid r.enc f = parseSettings r f >>= fun p => .ok (md, p.1.enc) := by
  have general : ∀ (l : List (Nat × Nat)) (md : SettingsMd) (enc : HpkCtx),
      ∃ md', l.foldlM storeSetting (md, enc) =
        (l.filter fun p => p.1 = 1).foldlM (fun ctx p => hpkResizeTbl ctx (UInt32.ofNat p.2)) enc
          >>= fun c => .ok (md', c) := by
    intro l
    induction l with
    | nil => exact fun md enc => ⟨md, rfl⟩
    | cons p l ih =>
      intro md enc
      by_cases hp : p.1 = 1
      · obtain ⟨c, hc, -⟩ := hpkResizeTbl_total enc (UInt32.ofNat p.2)
        obtain ⟨md', h⟩ := ih (Function.update md 1 (some (toInt32 p.2))) c
        refine ⟨md', ?_⟩
        rw [List.filter_cons_of_pos (by simpa using hp), List.foldlM_cons, List.foldlM_cons, hc,
          ok_bind, ← h, storeSetting]
        simp only [hp, ofInt_toInt32, hc, if_true, ok_bind, pure_res]
        rfl
      · obtain ⟨md', h⟩ := ih
          (if p.1 ≤ settingsMax then Function.update md p.1 (some (toInt32 p.2)) else md) enc
        refine ⟨md', ?_⟩
        rw [List.filter_cons_of_neg (by simpa using hp), List.foldlM_cons, ← h, storeSetting]
        simp only [hp, if_false, ok_bind, pure_res]
  obtain ⟨md, h⟩ := general (settingsOf f.data) (fun _ => none) r.enc
  refine ⟨md, ?_⟩
  rw [parseSettingsMd, parseSettings, h]
  simp only [bind_assoc, pure_res, ok_bind]

/-! ## Every list of settings can be asked for -/

/-- A setting as `-0xHHHH 0xVVVVVVVV`. -/
def rawArgs (p : Nat × Nat) : List Bytes :=
  [ascii "-0x" ++ numeral 16 p.1, 48 :: 120 :: numeral 16 p.2]

theorem askedPairs_rawArgs {l : List (Nat × Nat)} (h : ∀ p ∈ l, p.1 < 2 ^ 16 ∧ p.2 < 2 ^ 32) :
    askedPairs (l.flatMap rawArgs) = l := by
  induction l with
  | nil => rfl
  | cons p l ih =>
    obtain ⟨⟨htag, hval⟩, hl⟩ := List.forall_mem_cons.mp h
    have harg : setArg? (ascii "-0x" ++ numeral 16 p.1) = some (.kv (.raw (numeral 16 p.1))) := by
      rfl
    have htag' : (SetKey.raw (numeral 16 p.1)).tag = .ok p.1 := by
      obtain ⟨d, r, -, -, hr⟩ := @numeral_head 16 (by decide) p.1
      have hnum := @strtoul_numeral 16 (by decide) (by decide) p.1 (by omega) [] (by simp) rfl
      rw [List.append_nil] at hnum
      have hle : ¬ 0xffff < p.1 := by omega
      rw [SetKey.tag, hnum, hr]
      simp [hle]
    have hval' : (SetKey.raw (numeral 16 p.1)).value (48 :: 120 :: numeral 16 p.2) = .ok p.2 := by
      rw [SetKey.value, strtou32, strtoul_hex (by omega)]
      · simp only [List.isEmpty_nil, Bool.not_true, fatalIf_false, ok_bind, pure_res,
          Nat.mod_eq_of_lt hval]
      · exact nofun
    rw [List.flatMap_cons, rawArgs, List.cons_append, List.cons_append, List.nil_append, askedPairs,
      harg]
    simp only [htag', hval', ih hl]

/-- The numbers that print as they were sent. -/
theorem decimalInt_toInt32 {v : Nat} (hv : v < 2 ^ 32) :
    Http1.decimalInt (toInt32 v) = decimal v ↔ v < 2 ^ 31 := by
  constructor
  · intro h
    by_contra hge
    have hneg : toInt32 v < 0 := by
      rw [toInt32, Nat.mod_eq_of_lt hv, if_neg hge]
      omega
    obtain ⟨d, r, hd, hr⟩ := decimal_head v
    rw [Http1.decimalInt, if_pos hneg, hr] at h
    have hne : ∀ d : Fin 10, (45 : UInt8) ≠ digit d := by decide
    exact hne ⟨d, hd⟩ (List.cons.inj h).1
  · intro h
    rw [toInt32_of_lt h, Http1.decimalInt, if_neg (by omega), Int.toNat_natCast]

/-- What is received is what was asked for. -/
theorem parseSettingsMd_frame {dec : HpkCtx} {win : WinEnd} {av : List Bytes} {t : TxSettings}
    {f : Frame} (h : cmdTxsettings 0 dec win av = .ok (t, f)) (enc : HpkCtx) :
    parseSettingsMd 0 enc f = (askedPairs av).foldlM storeSetting (fun _ => none, enc) := by
  obtain ⟨hsize, hdata⟩ := cmdTxsettings_frame h
  have h6 : f.size % 6 = 0 := by rw [hsize, Nat.mul_mod_right]
  have hpairs : settingsOf f.data = askedPairs av := by
    rw [hdata, settingsOf_pairs fun p hp => mem_askedPairs hp]
  simp only [parseSettingsMd, h6, hpairs, ne_eq, not_true_eq_false, decide_false, fatalIf_false,
    ok_bind]

theorem settings_survive_iff {dec : HpkCtx} {win : WinEnd} {av : List Bytes} {t : TxSettings}
    {f : Frame} (h : cmdTxsettings 0 dec win av = .ok (t, f)) (enc : HpkCtx) :
    ∃ md enc', parseSettingsMd 0 enc f = .ok (md, enc') ∧
      (∀ idx ≤ settingsMax,
        (returnSettings md idx = none ↔ ∀ p ∈ askedPairs av, p.1 ≠ idx) ∧
        (returnSettings md idx = (lastSetting idx (askedPairs av)).map decimal ↔
          ∀ v, lastSetting idx (askedPairs av) = some v → v < 2 ^ 31)) ∧
      enc'.maxsize = (lastSetting 1 (askedPairs av)).elim enc.maxsize UInt32.ofNat := by
  obtain ⟨md, enc', hrun, hmd, henc⟩ := storeSettings_spec enc (askedPairs av)
  refine ⟨md, enc', (parseSettingsMd_frame h enc).trans hrun, fun idx hidx => ⟨?_, ?_⟩, henc⟩
  · rw [returnSettings, hmd idx hidx, Option.map_map, Option.map_eq_none_iff, lastSetting_eq_none]
  · rw [returnSettings, hmd idx hidx, Option.map_map]
    cases hlast : lastSetting idx (askedPairs av) with
    | none => simp
    | some v =>
      have hv : v < 2 ^ 32 := (mem_askedPairs (mem_of_lastSetting hlast)).2
      simpa using decimalInt_toInt32 hv

set_option maxRecDepth 8000 in
/-- `txsettings -hdrtbl 4096 -push true -hdrtbl 100`. -/
theorem settings_survive_hdrtbl :
    let av := [ascii "-hdrtbl", ascii "4096", ascii "-push", ascii "true", ascii "-hdrtbl",
      ascii "100"]
    ∃ t f md enc', cmdTxsettings 0 (hpkNewCtx 4096) {} av = .ok (t, f) ∧
      parseSettingsMd 0 (hpkNewCtx 4096) f = .ok (md, enc') ∧
      returnSettings md 1 = some (ascii "100") ∧ enc'.maxsize = 100 := by
  have hok : ∃ r, cmdTxsettings 0 (hpkNewCtx 4096) {} [ascii "-hdrtbl", ascii "4096",
      ascii "-push", ascii "true", ascii "-hdrtbl", ascii "100"] = .ok r := ⟨_, rfl⟩
  obtain ⟨⟨t, f⟩, h⟩ := hok
  obtain ⟨md, enc', hp, hmd, henc⟩ := settings_survive_iff h (hpkNewCtx 4096)
  refine ⟨t, f, md, enc', h, hp, ?_, henc⟩
  refine ((hmd 1 (by decide)).2.mpr fun v hv => ?_).trans rfl
  cases hv
  decide

set_option maxRecDepth 8000 in
/-- `txsettings -maxstreams 4294967295`, which stands for no limit. -/
theorem maxstreams_negative :
    ∃ t f md enc', cmdTxsettings 0 (hpkNewCtx 4096) {} [ascii "-maxstreams", ascii "4294967295"] =
        .ok (t, f) ∧
      parseSettingsMd 0 (hpkNewCtx 4096) f = .ok (md, enc') ∧
      returnSettings md 3 = some (ascii "-1") := by
  have hok : ∃ r, cmdTxsettings 0 (hpkNewCtx 4096) {}
      [ascii "-maxstreams", ascii "4294967295"] = .ok r := ⟨_, rfl⟩
  obtain ⟨⟨t, f⟩, h⟩ := hok
  exact ⟨t, f, _, _, h, parseSettingsMd_frame h _, rfl⟩

end Http2
end VTest
