import VTest.Macro.Table
import VTest.Script.Ends

/-!
# VTest.Macro.Expand

`macro_expand` of `vtc.c`: the references in a text are replaced by what `macro_cat` makes of them.

A text is cut into its references, from the left, and what follows the last one (`Refs`).

* `refs_exist`, `Refs.unique`: there is one way to do so.
* `macroExpandGo_eq`: what comes of each part. A `$\x7b` that is not closed makes for a second copy
  of what is between the last reference and it.
* `withMacros_returns`: the expansion ends, as the parser of scripts takes for granted.
-/

namespace VTest
namespace Macro

/-! ## The function -/

/-- `strstr(text, "$\x7b")`: the text in front of it, and the text from there on. -/
def findMacro : Bytes → Option (Bytes × Bytes)
  | [] => none
  | c :: t =>
    if c = 36 ∧ t.head? = some 123 then some ([], c :: t)
    else (findMacro t).map fun (a, p) => (c :: a, p)

/-- `strchr(p, '\x7d')`, likewise. -/
def findBrace : Bytes → Option (Bytes × Bytes)
  | [] => none
  | c :: t => if c = 125 then some ([], c :: t) else (findBrace t).map fun (a, q) => (c :: a, q)

/-- `macro_expand`, with what `macro_cat` appends for a reference. -/
def macroExpandGo (cat : Bytes → Res Bytes) : Nat → Bytes → Res Bytes
  | 0, _ => .error .fuel
  | fuel + 1, text =>
    match text with
    | [] => .ok []
    | _ :: _ =>
      match findMacro text with
      | none => .ok text
      | some (a, p) =>
        match findBrace p with
        | none => .ok (a ++ text)
        | some (r, q) => do
          let v ← cat (r.drop 2)
          let rest ← macroExpandGo cat fuel (q.drop 1)
          return a ++ v ++ rest

def macroExpand (cat : Bytes → Res Bytes) (text : Bytes) : Res Bytes :=
  macroExpandGo cat (text.length + 1) text

/-! ## References -/

/-- The text has a `$\x7b`, for the first time behind `a`, and `p` follows it. -/
def Opens (text a p : Bytes) : Prop :=
  text = a ++ 36 :: 123 :: p ∧ ∀ b q, text = b ++ 36 :: 123 :: q → a.length ≤ b.length

theorem Opens.unique {text a b p q : Bytes} (h : Opens text a p) (h' : Opens text b q) :
    a = b ∧ p = q := by
  have hlen : a.length = b.length := Nat.le_antisymm (h.2 b q h'.1) (h'.2 a p h.1)
  obtain ⟨hab, hpq⟩ := List.append_inj (h.1.symm.trans h'.1) hlen
  cases hpq
  exact ⟨hab, rfl⟩

theorem findMacro_none {text : Bytes} (h : findMacro text = none) (a p : Bytes) :
    text ≠ a ++ 36 :: 123 :: p := by
  induction text generalizing a with
  | nil => simp
  | cons c t ih =>
    rw [findMacro] at h
    split at h
    · cases h
    · rename_i hne
      rw [Option.map_eq_none_iff] at h
      cases a with
      | nil =>
        intro he
        cases he
        exact hne ⟨rfl, rfl⟩
      | cons d a =>
        intro he
        exact ih h a (List.cons.inj he).2

theorem findMacro_some {text a p : Bytes} (h : findMacro text = some (a, p)) :
    ∃ p', p = 36 :: 123 :: p' ∧ Opens text a p' := by
  induction text generalizing a with
  | nil => cases h
  | cons c t ih =>
    rw [findMacro] at h
    split at h
    · rename_i hc
      obtain ⟨rfl, ht⟩ := hc
      obtain ⟨t', rfl⟩ := List.head?_eq_some_iff.mp ht
      cases h
      exact ⟨t', rfl, rfl, fun _ _ _ => Nat.zero_le _⟩
    · rename_i hne
      obtain ⟨⟨a', p0⟩, hfind, hmap⟩ := Option.map_eq_some_iff.mp h
      cases hmap
      obtain ⟨p', hp, ht, hmin⟩ := ih hfind
      refine ⟨p', hp, by rw [ht]; rfl, fun b q hb => ?_⟩
      cases b with
      | nil =>
        cases hb
        exact absurd ⟨rfl, rfl⟩ hne
      | cons d b => exact Nat.succ_le_succ (hmin b q (List.cons.inj hb).2)

theorem Opens.findMacro {text a p : Bytes} (h : Opens text a p) :
    findMacro text = some (a, 36 :: 123 :: p) := by
  cases hfind : Macro.findMacro text with
  | none => exact absurd h.1 (findMacro_none hfind a p)
  | some bq =>
    obtain ⟨b, q⟩ := bq
    obtain ⟨q', rfl, h'⟩ := findMacro_some hfind
    obtain ⟨rfl, rfl⟩ := h.unique h'
    rfl

theorem findBrace_none {p : Bytes} (h : 125 ∉ p) : findBrace p = none := by
  induction p with
  | nil => rfl
  | cons c t ih =>
    rw [List.mem_cons, not_or] at h
    rw [findBrace, if_neg (Ne.symm h.1), ih h.2]
    rfl

theorem findBrace_eq {r : Bytes} (h : 125 ∉ r) (q : Bytes) :
    findBrace (r ++ 125 :: q) = some (r, 125 :: q) := by
  induction r with
  | nil => rfl
  | cons c r ih =>
    rw [List.mem_cons, not_or] at h
    rw [List.cons_append, findBrace, if_neg (Ne.symm h.1), ih h.2]
    rfl

/-- The first closing brace of a text. -/
theorem first_brace {p : Bytes} (h : 125 ∈ p) : ∃ r q, p = r ++ 125 :: q ∧ 125 ∉ r := by
  induction p with
  | nil => cases h
  | cons c p ih =>
    by_cases hc : c = 125
    · subst hc
      exact ⟨[], p, rfl, by simp⟩
    · obtain ⟨r, q, rfl, hr⟩ := ih ((List.mem_cons.mp h).resolve_left (Ne.symm hc))
      exact ⟨c :: r, q, rfl, by simp [Ne.symm hc, hr]⟩

/-- The references of a text, each with the text in front of it, and the text behind the last
one. -/
inductive Refs : Bytes → List (Bytes × Bytes) → Bytes → Prop where
  | last {t : Bytes} (h : ∀ a r rest, ¬Opens t a (r ++ 125 :: rest)) : Refs t [] t
  | ref {text a r rest t : Bytes} {segs : List (Bytes × Bytes)}
      (h : Opens text a (r ++ 125 :: rest)) (hr : 125 ∉ r) (hrest : Refs rest segs t) :
      Refs text ((a, r) :: segs) t

theorem refs_exist (text : Bytes) : ∃ segs t, Refs text segs t := by
  induction hn : text.length using Nat.strong_induction_on generalizing text with
  | _ n ih =>
    cases hfind : findMacro text with
    | none =>
      exact ⟨[], text, .last fun a r rest h => findMacro_none hfind a _ h.1⟩
    | some ap =>
      obtain ⟨a, p⟩ := ap
      obtain ⟨p', rfl, hopen⟩ := findMacro_some hfind
      by_cases hbrace : 125 ∈ p'
      · obtain ⟨r, q, rfl, hr⟩ := first_brace hbrace
        have hlt : q.length < n := by
          rw [← hn, hopen.1]
          simp only [List.length_append, List.length_cons]
          omega
        obtain ⟨segs, t, hrest⟩ := ih q.length hlt q rfl
        exact ⟨(a, r) :: segs, t, .ref hopen hr hrest⟩
      · refine ⟨[], text, .last fun b r rest h => hbrace ?_⟩
        rw [(hopen.unique h).2]
        simp

/-- The first closing brace is at one place only. -/
theorem brace_unique {r r' q q' : Bytes} (h : r ++ 125 :: q = r' ++ 125 :: q') (hr : 125 ∉ r)
    (hr' : 125 ∉ r') : r = r' ∧ q = q' := by
  have hfind := (findBrace_eq hr q).symm.trans ((congrArg findBrace h).trans (findBrace_eq hr' q'))
  cases hfind
  exact ⟨rfl, rfl⟩

theorem Refs.unique {text t t' : Bytes} {segs segs' : List (Bytes × Bytes)} (h : Refs text segs t)
    (h' : Refs text segs' t') : segs = segs' ∧ t = t' := by
  induction h generalizing segs' with
  | last hnone =>
    cases h' with
    | last _ => exact ⟨rfl, rfl⟩
    | ref hopen _ _ => exact absurd hopen (hnone _ _ _)
  | ref hopen hr _ ih =>
    cases h' with
    | last hnone => exact absurd hopen (hnone _ _ _)
    | ref hopen' hr' hrest' =>
      obtain ⟨rfl, hp⟩ := hopen.unique hopen'
      obtain ⟨rfl, rfl⟩ := brace_unique hp hr hr'
      obtain ⟨rfl, rfl⟩ := ih hrest'
      exact ⟨rfl, rfl⟩

/-! ## What comes of a text -/

/-- What is between the last reference and a `$\x7b` that is not closed. -/
def repeated (t : Bytes) : Bytes :=
  match findMacro t with
  | none => []
  | some (a, _) => a

/-- A turn at a reference. -/
theorem macroExpandGo_ref (cat : Bytes → Res Bytes) {text a r rest : Bytes}
    (hopen : Opens text a (r ++ 125 :: rest)) (hr : 125 ∉ r) (fuel : Nat) :
    macroExpandGo cat (fuel + 1) text = (do
      let v ← cat r
      let rest ← macroExpandGo cat fuel rest
      return a ++ v ++ rest) := by
  have hp : 125 ∉ 36 :: 123 :: r := by simpa using hr
  have hbrace : findBrace (36 :: 123 :: (r ++ 125 :: rest)) =
      some (36 :: 123 :: r, 125 :: rest) := findBrace_eq hp rest
  have hfind := hopen.findMacro
  obtain ⟨c, text', htext⟩ := List.exists_cons_of_ne_nil (show text ≠ [] by rw [hopen.1]; simp)
  rw [htext] at hfind ⊢
  rw [macroExpandGo]
  simp only [hfind, hbrace, List.drop_succ_cons, List.drop_zero]

/-- The last turn. -/
theorem macroExpandGo_last (cat : Bytes → Res Bytes) {t : Bytes}
    (hnone : ∀ a r rest, ¬Opens t a (r ++ 125 :: rest)) (fuel : Nat) :
    macroExpandGo cat (fuel + 1) t = .ok (repeated t ++ t) := by
  cases t with
  | nil => rfl
  | cons c t =>
    rw [macroExpandGo, repeated]
    cases hfind : findMacro (c :: t) with
    | none => rfl
    | some ap =>
      obtain ⟨a, p⟩ := ap
      obtain ⟨p', rfl, hopen⟩ := findMacro_some hfind
      have hbrace : 125 ∉ p' := fun hmem => by
        obtain ⟨r, q, rfl, -⟩ := first_brace hmem
        exact hnone a r q hopen
      have hp : 125 ∉ 36 :: 123 :: p' := by simpa using hbrace
      simp only [findBrace_none hp]

theorem Opens.length_rest {text a r rest : Bytes} (h : Opens text a (r ++ 125 :: rest)) :
    rest.length < text.length := by
  rw [h.1]
  simp only [List.length_append, List.length_cons]
  omega

theorem macroExpandGo_eq {cat : Bytes → Res Bytes} {val : Bytes → Bytes} {text t : Bytes}
    {segs : List (Bytes × Bytes)} (h : Refs text segs t)
    (hval : ∀ s ∈ segs, cat s.2 = .ok (val s.2)) {fuel : Nat} (hf : text.length < fuel) :
    macroExpandGo cat fuel text =
      .ok (segs.flatMap (fun s => s.1 ++ val s.2) ++ (repeated t ++ t)) := by
  induction h generalizing fuel with
  | last hnone =>
    obtain ⟨fuel, rfl⟩ : ∃ n, fuel = n + 1 := ⟨fuel - 1, by omega⟩
    exact macroExpandGo_last cat hnone fuel
  | @ref text a r rest t segs hopen hr _ ih =>
    obtain ⟨fuel, rfl⟩ : ∃ n, fuel = n + 1 := ⟨fuel - 1, by omega⟩
    have hlt := hopen.length_rest
    have hrun := ih (fun s hs => hval s (List.mem_cons_of_mem _ hs)) (by omega : rest.length < fuel)
    rw [macroExpandGo_ref cat hopen hr, hval (a, r) List.mem_cons_self, ok_bind, hrun, ok_bind,
      List.flatMap_cons]
    simp only [List.append_assoc]
    rfl

theorem repeated_eq_nil {t : Bytes} : repeated t = [] ↔ ∀ a p, Opens t a p → a = [] := by
  constructor
  · intro h a p hopen
    rw [repeated, hopen.findMacro] at h
    exact h
  · intro h
    rw [repeated]
    cases hfind : findMacro t with
    | none => rfl
    | some ap =>
      obtain ⟨p', -, hopen⟩ := findMacro_some hfind
      exact h ap.1 p' hopen

/-- Every reference is replaced by its value, and the rest is copied once, just if a `$\x7b` that is
not closed follows the last reference directly. -/
theorem macro_expand_iff (ignUnknownMacro : Bool) (ms : List Entry) (text : Bytes) :
    ∃ segs t, Refs text segs t ∧ (∀ segs' t', Refs text segs' t' → segs = segs' ∧ t = t') ∧
      ∀ val : Bytes → Bytes, (∀ s ∈ segs, macroCat ignUnknownMacro ms s.2 = .ok (val s.2)) →
        (macroExpand (macroCat ignUnknownMacro ms) text =
            .ok (segs.flatMap (fun s => s.1 ++ val s.2) ++ t) ↔
          ∀ a p, Opens t a p → a = []) := by
  obtain ⟨segs, t, hrefs⟩ := refs_exist text
  refine ⟨segs, t, hrefs, fun segs' t' h' => hrefs.unique h', fun val hval => ?_⟩
  rw [macroExpand, macroExpandGo_eq hrefs hval (Nat.lt_succ_self _), ← repeated_eq_nil]
  constructor
  · intro h
    have hcopy := List.append_cancel_left (Except.ok.inj h)
    exact List.append_left_eq_self.mp hcopy
  · intro h
    rw [h, List.nil_append]

/-- The text in front of a reference that is not closed comes out twice. -/
theorem unclosed_reference_doubles :
    macroExpand (macroCat false []) (ascii "a$\x7bb") = .ok (ascii "aa$\x7bb") := by
  decide +kernel

/-! ## The expansion ends -/

theorem argText_defined (flag : Flags) (t : Bytes) : Defined (fun _ => True) (argText flag t) := by
  rw [argText]
  split
  · exact .ok trivial
  · split
    · exact .assert
    · exact .ok trivial

/-- Every turn of the loop over the arguments moves on. -/
theorem parseArgs_defined (flag : Flags) (t : Bytes) :
    ∀ (fuel b : Nat) (sep : Option Nat) (args : List Bytes), t.length < fuel + b → 0 < fuel →
      Defined (fun _ => True) (parseArgs flag t fuel b sep args) := by
  intro fuel
  induction fuel with
  | zero => intro b sep args _ h0; omega
  | succ fuel ih =>
    intro b sep args hf _
    rw [parseArgs]
    split
    · rename_i hb
      dsimp only
      split
      · exact ih _ _ _ (by omega) (by omega)
      split
      · exact ih _ _ _ (by omega) (by omega)
      split
      · exact .ok trivial
      split
      · exact .ok trivial
      split
      · exact .ok trivial
      split
      · exact .ok trivial
      · -- behind an argument, the loop goes on behind its separator or at the end
        refine (argText_defined flag _).bind fun arg _ => ih _ _ _ ?_ (by omega)
        split <;> split <;> omega
    · exact .ok trivial

theorem Entry.call_defined (m : Entry)
    (hf : ∀ f, m.func = some f → ∀ args, Defined (fun _ => True) (f args)) (args : List Bytes) :
    Defined (fun _ => True) (m.call args) := by
  have hsource : Defined (fun d => ∀ f, d = .func f → m.func = some f) m.source := by
    rw [Entry.source]
    cases hfunc : m.func with
    | some f => exact Defined.check_bind fun _ => .ok fun g hg => by cases hg; rfl
    | none =>
      cases m.val with
      | none => exact .assert
      | some v =>
        refine .ok fun g hg => ?_
        cases hg
  refine hsource.bind fun d hd => ?_
  cases d with
  | func f =>
    exact (hf f (hd f rfl) args).bind fun _ _ => Defined.check_bind fun _ => .ok trivial
  | val v =>
    dsimp only
    split <;> exact .ok trivial

theorem macroCat_defined (ignUnknownMacro : Bool) {ms : List Entry}
    (hms : ∀ m ∈ ms, ∀ f, m.func = some f → ∀ args, Defined (fun _ => True) (f args))
    (text : Bytes) : Defined (fun _ => True) (macroCat ignUnknownMacro ms text) := by
  have hparse := parseArgs_defined { comma := true } text (text.length + 1) 0 none [] (by omega)
    (by omega)
  refine hparse.bind fun x _ => ?_
  cases x with
  | error e => exact .fatal
  | ok args =>
    refine Defined.check_bind fun _ => ?_
    have hcall : Defined (fun _ => True) (callMacro ms args) := by
      rw [callMacro]
      cases hm : Keyed.lookup Entry.name (args.headD []) ms with
      | none => exact .ok trivial
      | some m => exact m.call_defined (hms m (Keyed.mem_of_lookup hm)) args
    refine hcall.bind fun x _ => Defined.fatalIf_bind fun _ => ?_
    cases x.1 with
    | some v => exact .ok trivial
    | none => exact Defined.fatalIf_bind fun _ => .ok trivial

theorem macroExpandGo_defined {cat : Bytes → Res Bytes}
    (hcat : ∀ text, Defined (fun _ => True) (cat text)) {text t : Bytes}
    {segs : List (Bytes × Bytes)} (h : Refs text segs t) {fuel : Nat} (hf : text.length < fuel) :
    Defined (fun _ => True) (macroExpandGo cat fuel text) := by
  induction h generalizing fuel with
  | last hnone =>
    obtain ⟨fuel, rfl⟩ : ∃ n, fuel = n + 1 := ⟨fuel - 1, by omega⟩
    rw [macroExpandGo_last cat hnone]
    exact .ok trivial
  | ref hopen hr _ ih =>
    obtain ⟨fuel, rfl⟩ : ∃ n, fuel = n + 1 := ⟨fuel - 1, by omega⟩
    have hlt := hopen.length_rest
    rw [macroExpandGo_ref cat hopen hr]
    exact (hcat _).bind fun _ _ => (ih (by omega)).bind fun _ _ => .ok trivial

/-- A parser with these macros. -/
def withMacros {S : Type} (env : Script.Env S) (ignUnknownMacro : Bool) (ms : List Entry) :
    Script.Env S :=
  { env with
    macroExpand := fun s text =>
      Script.lift s ((macroExpand (macroCat ignUnknownMacro ms) text).map (·, s)) }

/-- Macros whose functions return or report a failure do not keep the parser from its end. -/
theorem withMacros_returns {S : Type} {env : Script.Env S} (henv : env.Returns)
    (ignUnknownMacro : Bool) {ms : List Entry}
    (hms : ∀ m ∈ ms, ∀ f, m.func = some f → ∀ args, Defined (fun _ => True) (f args)) :
    (withMacros env ignUnknownMacro ms).Returns where
  macros s text := by
    obtain ⟨segs, t, hrefs⟩ := refs_exist text
    have hexp := macroExpandGo_defined (macroCat_defined ignUnknownMacro hms) hrefs
      (Nat.lt_succ_self _)
    refine Script.Ends.lift ?_ s
    exact hexp.bind (f := fun x => .ok (x, s)) fun _ _ => .ok trivial
  cmds := henv.cmds

end Macro
end VTest
