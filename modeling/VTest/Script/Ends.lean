import VTest.Lib.Defined
import VTest.Script.Malformed

/-!
# VTest.Script.Ends

Whether `parse_string` comes to an end. Every turn of the outer loop and of the token loop moves on
in the spec; the loop over a quoted token does so unless an escape is rejected. Then it stands still
while it writes NULs up to the backslash, and at a backslash that is the last byte of the spec it
stands still for good.

* `tokenize_defined`, `parseTurn_ends`: a line comes to an end if it meets no such backslash.
* `parse_string_ends_iff`: the whole run.
-/

namespace VTest
namespace Script

variable {S : Type}

/-! ## Runs that end -/

/-- The run returns a value with the property `P`, or reports a failure. -/
inductive Ends {α : Type} (P : α → Prop) : Run S α → Prop where
  | fatal (s : S) : Ends P (.error (.fatal, s))
  | assert (s : S) : Ends P (.error (.assert, s))
  | ok {a : α} (h : P a) : Ends P (.ok a)

section Rules

variable {α β : Type} {P : α → Prop} {Q : β → Prop} {x : Run S α}

theorem Ends.bind {f : α → Run S β} (hx : Ends P x) (hf : ∀ a, x = .ok a → P a → Ends Q (f a)) :
    Ends Q (x >>= f) := by
  cases hx with
  | fatal s => exact .fatal s
  | assert s => exact .assert s
  | ok h => exact hf _ rfl h

theorem Ends.mono {P' : α → Prop} (hx : Ends P x) (h : ∀ a, P a → P' a) : Ends P' x := by
  cases hx with
  | fatal s => exact .fatal s
  | assert s => exact .assert s
  | ok ha => exact .ok (h _ ha)

theorem Ends.lift {x : Res α} (hx : Defined P x) (s : S) : Ends P (lift s x) := by
  cases hx with
  | fatal => exact .fatal s
  | assert => exact .assert s
  | ok h => exact .ok h

end Rules

/-- The macros and the commands return, or report a failure. -/
structure Env.Returns (env : Env S) : Prop where
  macros : ∀ s text, Ends (fun _ => True) (env.macroExpand s text)
  cmds : ∀ name c, env.lookup name = some c → ∀ s args, Ends (fun _ => True) (c s args)

/-! ## The tokens of a line -/

section Line

variable {spec : Bytes} {start l : Line}

/-- The token loop stands at a quote, and has room for a token. -/
structure AtQuote (spec : Bytes) (l : Line) : Prop where
  before : l.p < spec.length
  count : l.toks.length < maxTokens
  quote : l.m.getD l.p 0 = 34

/-- A turn of the token loop that does not stand at a quote with a lone backslash. -/
theorem tokStep_defined (h : Keeps spec l) (h0 : 0 ∉ spec) (hp : l.p < spec.length)
    (hlone : AtQuote spec l → ¬Lone (behind spec l)) :
    Defined (fun _ => True) (tokStep spec.length l) := by
  refine Defined.check_bind fun hn => ?_
  have hn : l.toks.length < maxTokens := of_decide_eq_true hn
  dsimp only
  split
  · exact .ok trivial
  split
  · exact .ok trivial
  split
  · exact .ok trivial
  split
  · rename_i hc
    have hq : Defined (fun _ => True) (quoteTok spec l) := by
      rcases quoteTok_outcome h.unread hp hc h0 with ⟨_, hg⟩ | ⟨_, hf⟩ | ⟨_, hg | ⟨hl, _⟩⟩
      · obtain ⟨m', p', q', hok, _⟩ := hg
        rw [hok]
        exact .ok trivial
      · rcases hf with hf | ⟨m', q', hok, _⟩
        · rw [hf]
          exact .fatal
        · rw [hok]
          exact .ok trivial
      · obtain ⟨m', p', q', hok, _⟩ := hg
        rw [hok]
        exact .ok trivial
      · exact absurd hl (hlone ⟨hp, hn, hc⟩)
    exact hq.bind fun _ _ => .ok trivial
  split
  · exact Defined.check_bind fun _ => .ok trivial
  · exact .ok trivial

/-- The token loop has turns enough: each moves on by a byte at least. -/
theorem collect_defined (h0 : 0 ∉ spec) (hk : Keeps spec start)
    (hlone : ∀ l, OnLine spec.length start l → AtQuote spec l → ¬Lone (behind spec l)) :
    ∀ (fuel : Nat) (l : Line), OnLine spec.length start l → 1 ≤ fuel →
      spec.length + 1 ≤ fuel + l.p → Defined (fun _ => True) (collect spec.length fuel l) := by
  intro fuel
  induction fuel with
  | zero => intro l _ h1 _; omega
  | succ fuel ih =>
    intro l hon _ hf
    rw [collect]
    split
    · rename_i hp
      have hkl := (hon.keeps h0 hk).2
      have hstep := tokStep_defined hkl h0 hp (hlone l hon)
      cases hs : tokStep spec.length l with
      | error t =>
        rw [hs] at hstep
        cases hstep with
        | fatal => exact .fatal
        | assert => exact .assert
      | ok x =>
        cases x with
        | none => exact .ok trivial
        | some l' =>
          have hlt := (tokStep_keeps hkl hp h0 hs).1
          exact ih l' (hon.turn hp hs) (by omega) (by omega)
    · exact .ok trivial

theorem tokenize_defined (h0 : 0 ∉ spec) (hk : Keeps spec start)
    (hlone : ∀ l, OnLine spec.length start l → AtQuote spec l → ¬Lone (behind spec l)) :
    Defined (fun _ => True) (tokenize spec.length start) := by
  have hcol := collect_defined h0 hk hlone (spec.length + 1) start .start (by omega) (by omega)
  exact hcol.bind fun l _ => Defined.check_bind fun _ => Defined.check_bind fun _ => .ok trivial

end Line

theorem endTokens_ends {env : Env S} (hret : env.Returns) :
    ∀ (toks : List (Nat × Nat)) (m : Bytes) (s : S),
      Ends (fun _ => True) (endTokens env toks m s) := by
  intro toks
  induction toks with
  | nil => intro m s; exact .ok trivial
  | cons t toks ih =>
    intro m s
    obtain ⟨a, b⟩ := t
    rw [endTokens]
    dsimp only
    split
    · refine (hret.macros s _).bind fun x _ _ => ?_
      split
      · exact .ok trivial
      · exact (ih _ _).bind fun _ _ _ => .ok trivial
    · exact (ih _ _).bind fun _ _ _ => .ok trivial

/-! ## A turn of the outer loop -/

/-- A line starts here. -/
structure Starts (env : Env S) (spec m : Bytes) (p : Nat) (s : S) : Prop where
  before : p < spec.length
  running : env.halted s = false
  text : isspace (m.getD p 0) = false
  comment : m.getD p 0 ≠ 35

/-- The line that starts here has these arguments, in the state in which its command is called. -/
def Calls (env : Env S) (spec m : Bytes) (p : Nat) (s : S) (args : List Bytes) (s' : S) : Prop :=
  ∃ l m' as, tokenize spec.length { m := m, p := p } = .ok l ∧
    endTokens env l.toks l.m s = .ok (m', some as, s') ∧ args = as.map (Arg.read m')

section Turn

variable {env : Env S} {nested : Bytes → S → Run S S} {spec m : Bytes} {p : Nat} {s : S}

/-- A turn at the start of a line. -/
theorem Starts.parseTurn_eq (h : Starts env spec m p s) :
    parseTurn env nested spec.length m p s = (do
      let l ← lift s (tokenize spec.length { m := m, p := p })
      let (m, args, s) ← endTokens env l.toks l.m s
      match args with
      | none => return .leave s
      | some args => do
        let s ← execute env nested (args.map (Arg.read m)) s
        return .next m (l.p + 1) s) := by
  have h10 : m.getD p 0 ≠ 10 := by
    intro h10
    have htext := h.text
    rw [h10] at htext
    cases htext
  have hspace : ¬isspace (m.getD p 0) = true := by
    rw [h.text]
    exact Bool.false_ne_true
  rw [parseTurn, h.running, if_neg Bool.false_ne_true]
  exact (if_neg hspace).trans ((if_neg h10).trans (if_neg h.comment))

/-- A command that is not `loop` comes to an end. -/
theorem execute_ends (hret : env.Returns) {args : List Bytes} (hne : args ≠ [])
    (hloop : args.head? ≠ some (ascii "loop")) :
    Ends (fun _ => True) (execute env nested args s) := by
  cases args with
  | nil => exact absurd rfl hne
  | cons name rest =>
    have hname : name ≠ ascii "loop" := fun h => hloop (congrArg some h)
    unfold execute
    dsimp only
    rw [if_neg hname]
    cases hc : env.lookup name with
    | none => exact .fatal s
    | some c => exact hret.cmds name c hc s _

theorem parseTurn_ends (hret : env.Returns) (h0 : 0 ∉ spec) (hun : Unread spec m p)
    (hp : p < spec.length)
    (hlone : Starts env spec m p s → ∀ l, OnLine spec.length { m := m, p := p } l →
      AtQuote spec l → ¬Lone (behind spec l))
    (hargs : Starts env spec m p s → ∀ args s', Calls env spec m p s args s' →
      args ≠ [] ∧ args.head? ≠ some (ascii "loop")) :
    Ends (fun _ => True) (parseTurn env nested spec.length m p s) := by
  by_cases hst : Starts env spec m p s
  · rw [hst.parseTurn_eq]
    have htok := tokenize_defined h0 ⟨hun, by simp⟩ (hlone hst)
    refine (Ends.lift htok s).bind fun l hl _ => ?_
    refine (endTokens_ends hret l.toks l.m s).bind fun x hx _ => ?_
    obtain ⟨m', args, s'⟩ := x
    cases args with
    | none => exact .ok trivial
    | some as =>
      obtain ⟨hne, hloop⟩ := hargs hst _ s' ⟨l, m', as, lift_eq_ok.mp hl, hx, rfl⟩
      exact (execute_ends hret hne hloop).bind fun _ _ _ => .ok trivial
  · -- the other turns execute nothing
    rw [parseTurn]
    dsimp only
    split
    · exact .ok trivial
    split
    · exact .ok trivial
    split
    · exact .ok trivial
    split
    · exact .ok trivial
    · rename_i h1 h2 _ h4
      exact absurd ⟨hp, by simpa using h1, by simpa using h2, h4⟩ hst

end Turn

/-! ## The run -/

section Run

variable {env : Env S} {nested : Bytes → S → Run S S} {spec : Bytes} {s : S}

/-- `parse_string` comes to a line with these arguments. -/
def Executes (env : Env S) (nested : Bytes → S → Run S S) (spec : Bytes) (s : S)
    (args : List Bytes) (s' : S) : Prop :=
  ∃ m p s1, Comes env nested spec.length (spec ++ [0]) 0 s m p s1 ∧ Starts env spec m p s1 ∧
    Calls env spec m p s1 args s'

theorem parseLoop_ends (hret : env.Returns) (h0 : 0 ∉ spec)
    (hlone : ∀ l s', Meets env nested spec s l s' → ¬Lone (behind spec l))
    (hargs : ∀ args s', Executes env nested spec s args s' →
      args ≠ [] ∧ args.head? ≠ some (ascii "loop")) :
    ∀ (fuel : Nat) (m : Bytes) (p : Nat) (s' : S),
      Comes env nested spec.length (spec ++ [0]) 0 s m p s' → 1 ≤ fuel →
      spec.length + 1 ≤ fuel + p →
      Ends (fun _ => True) (parseLoop env nested spec.length fuel m p s') := by
  intro fuel
  induction fuel with
  | zero => intro m p s' _ h1 _; omega
  | succ fuel ih =>
    intro m p s' hcome _ hf
    rw [parseLoop]
    split
    · rename_i hp
      have hun := hcome.keeps h0
      refine (parseTurn_ends hret h0 hun hp ?_ ?_).bind fun t ht _ => ?_
      · intro hst l hon hq
        exact hlone l s' ⟨⟨m, p, hcome, hp, hst.text, hst.comment, hon⟩, hst.running, hq.before,
          hq.count, hq.quote⟩
      · intro hst args s2 hcall
        exact hargs args s2 ⟨m, p, s', hcome, hst, hcall⟩
      · cases t with
        | leave s2 => exact .ok trivial
        | next m' p' s2 =>
          have hlt := (parseTurn_keeps hun h0 ht).1
          exact ih m' p' s2 (hcome.turn hp ht) (by omega) (by omega)
    · exact .ok trivial

/-- At a lone backslash the run never ends. -/
theorem Meets.parseString_lone {depth : Nat} {l : Line} {s' : S}
    (h : Meets env (parseString env depth) spec s l s') (h0 : 0 ∉ spec)
    (hl : Lone (behind spec l)) : parseString env (depth + 1) spec s = .error (.fuel, s') := by
  obtain ⟨a, ha, hspec, hlen, heq⟩ := quoteTok_eq (h.keeps h0).unread h.before h.quote
  refine h.parseString_error h0 fun fuel => ?_
  rw [collect, if_pos h.before, tokStep_quote_eq spec h.quote h.count, heq, quote_lone hlen hl]
  rfl

/-- A line without arguments: `token_s[0]` is NULL. -/
theorem Executes.parseString_nil {depth : Nat} {s' : S}
    (h : Executes env (parseString env depth) spec s [] s') (h0 : 0 ∉ spec) :
    parseString env (depth + 1) spec s = .error (.ub, s') := by
  obtain ⟨m, p, s1, hcome, hst, l, m', as, htok, hend, has⟩ := h
  obtain ⟨n, hn, hloop⟩ := hcome.parseLoop h0
  have hp := hst.before
  have hfuel : spec.length + 1 = (spec.length - n) + 1 + n := by omega
  rw [parseString, hfuel, hloop, parseLoop, if_pos hp, hst.parseTurn_eq, htok]
  simp only [lift, run_bind, hend, ← has]
  rfl

/-- Every turn of the outer loop and of the token loop moves on. A run with commands that return,
and without `loop`, ends just if it meets no quoted token with a lone backslash and no line without
arguments. -/
theorem parse_string_ends_iff {depth : Nat} (hret : env.Returns) (h0 : 0 ∉ spec)
    (hloop : ∀ args s', Executes env (parseString env depth) spec s args s' →
      args.head? ≠ some (ascii "loop")) :
    (∀ m p s1 m' p' s2, Comes env (parseString env depth) spec.length (spec ++ [0]) 0 s m p s1 →
      parseTurn env (parseString env depth) spec.length m p s1 = .ok (.next m' p' s2) → p < p') ∧
    (∀ m p s1 l l', Comes env (parseString env depth) spec.length (spec ++ [0]) 0 s m p s1 →
      OnLine spec.length { m := m, p := p } l → l.p < spec.length →
      tokStep spec.length l = .ok (some l') → l.p < l'.p) ∧
    (Ends (fun _ => True) (parseString env (depth + 1) spec s) ↔
      (∀ l s', Meets env (parseString env depth) spec s l s' → ¬Lone (behind spec l)) ∧
      ∀ s', ¬Executes env (parseString env depth) spec s [] s') := by
  refine ⟨?_, ?_, ?_, ?_⟩
  · intro m p s1 m' p' s2 hcome hturn
    exact (parseTurn_keeps (hcome.keeps h0) h0 hturn).1
  · intro m p s1 l l' hcome hon hp hstep
    exact (tokStep_keeps (hon.keeps h0 ⟨hcome.keeps h0, by simp⟩).2 hp h0 hstep).1
  · intro hends
    constructor
    · intro l s' hm hl
      rw [hm.parseString_lone h0 hl] at hends
      cases hends
    · intro s' hex
      rw [hex.parseString_nil h0] at hends
      cases hends
  · rintro ⟨hlone, hnil⟩
    refine parseLoop_ends hret h0 hlone ?_ (spec.length + 1) _ 0 s .start (by omega) (by omega)
    intro args s' hex
    refine ⟨?_, hloop args s' hex⟩
    rintro rfl
    exact hnil s' hex

end Run

theorem logEnv_returns : logEnv.Returns where
  macros _ _ := .ok trivial
  cmds name c h s args := by
    simp only [Env.lookup, logEnv] at h
    split at h
    · cases h
      exact .ok trivial
    · cases h

/-- `c "a"`. -/
theorem parse_string_ends_quoted :
    Ends (fun _ => True) (parseString logEnv 1 [99, 32, 34, 97, 34] []) ↔
      (∀ l s', Meets logEnv (parseString logEnv 0) [99, 32, 34, 97, 34] [] l s' →
        ¬Lone (behind [99, 32, 34, 97, 34] l)) ∧
      ∀ s', ¬Executes logEnv (parseString logEnv 0) [99, 32, 34, 97, 34] [] [] s' := by
  have hplace : ∀ m p s, Comes logEnv (parseString logEnv 0) 5 [99, 32, 34, 97, 34, 0] 0 [] m p s →
      (m = [99, 32, 34, 97, 34, 0] ∧ p = 0 ∧ s = []) ∨ 5 ≤ p := by
    intro m p s h
    induction h with
    | start => exact .inl ⟨rfl, rfl, rfl⟩
    | turn _ hp hs ih =>
      rcases ih with ⟨rfl, rfl, rfl⟩ | hge
      · have hturn : parseTurn logEnv (parseString logEnv 0) 5 [99, 32, 34, 97, 34, 0] 0 [] =
            .ok (.next [99, 0, 34, 97, 0, 0] 6 [[[99], [97]]]) := rfl
        cases hs.symm.trans hturn
        exact .inr (by decide)
      · omega
  refine (parse_string_ends_iff logEnv_returns (by decide) ?_).2.2
  rintro args s' ⟨m, p, s1, hcome, hst, l, m', as, htok, hend, rfl⟩
  rcases hplace m p s1 hcome with ⟨rfl, rfl, rfl⟩ | hge
  · have hline : tokenize 5 { m := [99, 32, 34, 97, 34, 0], p := 0 } =
        .ok { m := [99, 32, 34, 97, 34, 0], p := 5, toks := [(0, 1), (3, 4)] } := rfl
    cases htok.symm.trans hline
    have hargs : endTokens logEnv [(0, 1), (3, 4)] [99, 32, 34, 97, 34, 0] [] =
        .ok ([99, 0, 34, 97, 0, 0], some [.place 0, .place 3], []) := rfl
    cases hend.symm.trans hargs
    decide
  · exact absurd hst.before (Nat.not_lt.mpr hge)

/-- `c "a\`, with the backslash as the last byte: the loop over the token never ends. -/
theorem lone_backslash_spins :
    (∀ fuel, quoteLoop 5 fuel [99, 32, 34, 97, 92, 0] 3 3 = .error .fuel) ∧
      parseString logEnv 1 [99, 32, 34, 97, 92] [] = .error (.fuel, []) := by
  refine ⟨fun fuel => ?_, rfl⟩
  cases fuel with
  | zero => rfl
  | succ fuel => exact quoteAt_spins (a := [99, 32, 34, 97]) (by decide) fuel 4

end Script
end VTest
