import VTest.Lib.Keyed
import VTest.Macro.Argv
import VTest.Macro.Func

/-!
# VTest.Macro.Table

The macros of `vtc.c`: `macro_list`, the functions that define and undefine macros, and `macro_cat`,
which looks one up. A function and a text that are defined under one name share an entry, in two
different fields.

* `Reads.step`, `reads_run`: a history of definitions leaves one entry per name, with the last
  function and the last text since the name was undefined.
* `macro_table_iff`: what that means for `macro_cat`.
-/

namespace VTest
namespace Macro

/-! ## The list -/

/-- `struct macro`. -/
structure Entry where
  name : Bytes
  val : Option Bytes := none
  func : Option MacroF := none

/-- What a macro is defined as: `func`, or the text of the format `fmt`. -/
inductive Def where
  | func (f : MacroF)
  | val (v : Bytes)

def Entry.define (m : Entry) : Def → Entry
  | .func f => { m with func := some f }
  | .val v => { m with val := some v }

/-- A text is formatted in `buf[2048]`. -/
def Def.fits : Def → Bool
  | .func _ => true
  | .val v => v.length < 2048

def macroDefInt (ms : List Entry) (name : Bytes) (d : Def) : Res (List Entry) := do
  check d.fits
  return Keyed.upsert Entry.name name { name := name } (·.define d) ms

/-- `bprintf(buf1, "%s_%s", instance, name)`, if there is an instance. -/
def fullName (inst : Option Bytes) (name : Bytes) : Bytes :=
  match inst with
  | none => name
  | some i => i ++ ascii "_" ++ name

/-- The full name is formatted in `buf1[256]`. -/
def nameFits (inst : Option Bytes) (name : Bytes) : Bool :=
  inst.isNone || (fullName inst name).length < 256

def extmacroDef (ms : List Entry) (name : Bytes) (d : Def) : Res (List Entry) :=
  macroDefInt ms name d

def macroDef (ms : List Entry) (inst : Option Bytes) (name v : Bytes) : Res (List Entry) := do
  check (nameFits inst name)
  macroDefInt ms (fullName inst name) (.val v)

def macroUndef (ms : List Entry) (inst : Option Bytes) (name : Bytes) : Res (List Entry) := do
  check (nameFits inst name)
  return Keyed.remove Entry.name (fullName inst name) ms

/-- What an entry gives, with `AZ(m->val)` and `AN(m->val)`. -/
def Entry.source (m : Entry) : Res Def :=
  match m.func with
  | some f => do
    check m.val.isNone
    return .func f
  | none =>
    match m.val with
    | none => .error .assert
    | some v => .ok (.val v)

/-- `retval` and `err` for an entry and the arguments. -/
def Entry.call (m : Entry) (args : List Bytes) : Res (Option Bytes × Option Bytes) := do
  match ← m.source with
  | .func f => do
    let (retval, err) ← f args
    check (err.isSome || retval.isSome)
    return (retval, err)
  | .val v =>
    if args.length = 1 then return (some v, none)
    else return (none, some (ascii "macro does not take arguments"))

/-- The macro that `argv[1]` names is called, if there is one. -/
def callMacro (ms : List Entry) (args : List Bytes) : Res (Option Bytes × Option Bytes) :=
  match Keyed.lookup Entry.name (args.headD []) ms with
  | some m => m.call args
  | none => .ok (none, none)

/-- `macro_cat`, on the text of the reference: what it appends. -/
def macroCat (ignUnknownMacro : Bool) (ms : List Entry) (text : Bytes) : Res Bytes := do
  match ← vavParseTxt { comma := true } text with
  | .error _ => .error .fatal
  | .ok args => do
    check (1 ≤ args.length)
    let (retval, err) ← callMacro ms args
    fatalIf err.isSome
    match retval with
    | some v => return v
    | none => do
      fatalIf (!ignUnknownMacro)
      return ascii "$\x7b" ++ text ++ ascii "\x7d"

/-! ## Histories -/

inductive Op where
  | extmacroDef (name : Bytes) (d : Def)
  | macroDef (inst : Option Bytes) (name v : Bytes)
  | macroUndef (inst : Option Bytes) (name : Bytes)

def Op.run (ms : List Entry) : Op → Res (List Entry)
  | .extmacroDef name d => Macro.extmacroDef ms name d
  | .macroDef inst name v => Macro.macroDef ms inst name v
  | .macroUndef inst name => Macro.macroUndef ms inst name

/-- `main`, as far as every build has it. -/
def mainDefs (cwd now : Bytes) : List Op :=
  [.extmacroDef (ascii "pwd") (.val cwd), .extmacroDef (ascii "date") (.func (macroFuncDate now)),
    .extmacroDef (ascii "string") (.func macroFuncString)]

/-- `parse_D_opt`. -/
def parseDOpt (arg : Bytes) : Option Op :=
  match arg.dropWhile (· ≠ 61) with
  | [] => none
  | _ :: q => some (.extmacroDef (arg.takeWhile (· ≠ 61)) (.val q))

/-- The name an operation is about. -/
def Op.name : Op → Bytes
  | .extmacroDef name _ => name
  | .macroDef inst name _ => fullName inst name
  | .macroUndef inst name => fullName inst name

/-- What it defines the name as; nothing if it undefines it. -/
def Op.gives : Op → Option Def
  | .extmacroDef _ d => some d
  | .macroDef _ _ v => some (.val v)
  | .macroUndef _ _ => none

/-- The texts and names are short enough for the buffers they are formatted in. -/
def Op.fits : Op → Bool
  | .extmacroDef _ d => d.fits
  | .macroDef inst name v => nameFits inst name && Def.fits (.val v)
  | .macroUndef inst name => nameFits inst name

theorem Op.run_eq {op : Op} (h : op.fits = true) (ms : List Entry) :
    op.run ms = .ok (match op.gives with
      | some d => Keyed.upsert Entry.name op.name { name := op.name } (·.define d) ms
      | none => Keyed.remove Entry.name op.name ms) := by
  cases op with
  | extmacroDef name d =>
    rw [Op.fits] at h
    rw [Op.run, Macro.extmacroDef, macroDefInt, h]
    rfl
  | macroDef inst name v =>
    rw [Op.fits, Bool.and_eq_true] at h
    rw [Op.run, Macro.macroDef, macroDefInt, h.1, h.2]
    rfl
  | macroUndef inst name =>
    rw [Op.fits] at h
    rw [Op.run, Macro.macroUndef, h]
    rfl

/-- The definitions of each name since it was undefined last. -/
abbrev Since := Bytes → List Def

def Op.record (ds : Since) (op : Op) : Since := fun n =>
  if n = op.name then
    match op.gives with
    | some d => ds n ++ [d]
    | none => []
  else ds n

def since (ops : List Op) : Since := ops.foldl Op.record fun _ => []

/-- The entry that these definitions leave. -/
def entryOf (n : Bytes) (ds : List Def) : Option Entry :=
  if ds.isEmpty then none else some (ds.foldl Entry.define { name := n })

/-- The list has one entry for each name that is defined, the one its definitions leave. -/
structure Reads (ms : List Entry) (ds : Since) : Prop where
  nodup : (ms.map Entry.name).Nodup
  entry : ∀ n, Keyed.lookup Entry.name n ms = entryOf n (ds n)

theorem Entry.define_name (m : Entry) (d : Def) : (m.define d).name = m.name := by
  cases d <;> rfl

/-- One more definition changes the entry, or makes one. -/
theorem entryOf_snoc (n : Bytes) (ds : List Def) (d : Def) :
    entryOf n (ds ++ [d]) = some (((entryOf n ds).getD { name := n }).define d) := by
  rw [entryOf, if_neg (by simp), List.foldl_append, List.foldl_cons, List.foldl_nil]
  cases ds with
  | nil => rfl
  | cons e ds => rfl

theorem Reads.step {ms : List Entry} {ds : Since} (h : Reads ms ds) {op : Op}
    (hfit : op.fits = true) : ∃ ms', op.run ms = .ok ms' ∧ Reads ms' (op.record ds) := by
  have hrun := op.run_eq hfit ms
  have hrec : ∀ n, op.record ds n = if n = op.name then
      match op.gives with
      | some d => ds n ++ [d]
      | none => []
    else ds n := fun _ => rfl
  cases hg : op.gives with
  | some d =>
    have hdef : ∀ m : Entry, (m.define d).name = m.name := fun m => m.define_name d
    have hnew : Entry.name { name := op.name } = op.name := rfl
    simp only [hg] at hrun
    refine ⟨_, hrun, Keyed.nodup_upsert hnew hdef h.nodup, fun n => ?_⟩
    rw [Keyed.lookup_upsert hnew hdef, hrec, hg]
    by_cases hn : n = op.name
    · rw [if_pos hn, if_pos hn, entryOf_snoc, ← h.entry, hn]
    · rw [if_neg hn, if_neg hn, h.entry]
  | none =>
    simp only [hg] at hrun
    refine ⟨_, hrun, Keyed.nodup_remove h.nodup, fun n => ?_⟩
    rw [Keyed.lookup_remove h.nodup, hrec, hg]
    by_cases hn : n = op.name
    · rw [if_pos hn, if_pos hn]
      rfl
    · rw [if_neg hn, if_neg hn, h.entry]

theorem reads_run {ms : List Entry} {ds : Since} (h : Reads ms ds) (ops : List Op)
    (hfit : ∀ op ∈ ops, op.fits = true) :
    ∃ ms', ops.foldlM Op.run ms = .ok ms' ∧ Reads ms' (ops.foldl Op.record ds) := by
  induction ops generalizing ms ds with
  | nil => exact ⟨ms, rfl, h⟩
  | cons op ops ih =>
    obtain ⟨ms1, hrun, h1⟩ := h.step (hfit op List.mem_cons_self)
    obtain ⟨ms2, hrun2, h2⟩ := ih h1 fun o ho => hfit o (List.mem_cons_of_mem _ ho)
    refine ⟨ms2, ?_, h2⟩
    rw [List.foldlM_cons, hrun]
    exact hrun2

/-! ## Functions and texts under one name -/

def Def.func? : Def → Option MacroF
  | .func f => some f
  | .val _ => none

def Def.val? : Def → Option Bytes
  | .func _ => none
  | .val v => some v

/-- The entry has the last function and the last text. -/
theorem foldl_define (m : Entry) (ds : List Def) :
    (ds.foldl Entry.define m).func = (ds.filterMap Def.func?).getLast?.or m.func ∧
      (ds.foldl Entry.define m).val = (ds.filterMap Def.val?).getLast?.or m.val := by
  induction ds generalizing m with
  | nil => exact ⟨rfl, rfl⟩
  | cons d ds ih =>
    rw [List.foldl_cons, (ih (m.define d)).1, (ih (m.define d)).2]
    cases d with
    | func f =>
      simp only [Entry.define, List.filterMap_cons, Def.func?, Def.val?, List.getLast?_cons]
      cases (ds.filterMap Def.func?).getLast? <;> simp
    | val v =>
      simp only [Entry.define, List.filterMap_cons, Def.func?, Def.val?, List.getLast?_cons]
      cases (ds.filterMap Def.val?).getLast? <;> simp

/-- A function and a text are among the definitions. -/
def Mixed (ds : List Def) : Prop := ds.filterMap Def.func? ≠ [] ∧ ds.filterMap Def.val? ≠ []

/-- The entry has that definition and no other. -/
def Entry.Is (m : Entry) : Def → Prop
  | .func f => m.func = some f ∧ m.val = none
  | .val v => m.val = some v ∧ m.func = none

section Entries

variable {n : Bytes} {ds : List Def} {m : Entry}

theorem entryOf_fields (h : entryOf n ds = some m) :
    m.func = (ds.filterMap Def.func?).getLast? ∧ m.val = (ds.filterMap Def.val?).getLast? := by
  rw [entryOf] at h
  split at h
  · cases h
  · cases h
    have hfields := foldl_define { name := n } ds
    simpa using hfields

theorem mixed_iff (h : entryOf n ds = some m) :
    Mixed ds ↔ m.func.isSome = true ∧ m.val.isSome = true := by
  obtain ⟨hf, hv⟩ := entryOf_fields h
  rw [hf, hv, Mixed, List.getLast?_isSome, List.getLast?_isSome]

/-- The last definition is in its field. -/
theorem entry_last (h : entryOf n ds = some m) :
    ∃ d, ds.getLast? = some d ∧
      ((∃ f, d = .func f ∧ m.func = some f) ∨ ∃ v, d = .val v ∧ m.val = some v) := by
  obtain ⟨hf, hv⟩ := entryOf_fields h
  rcases List.eq_nil_or_concat ds with rfl | ⟨ds', d, rfl⟩
  · cases h
  · refine ⟨d, by simp, ?_⟩
    cases d with
    | func f => exact .inl ⟨f, rfl, by simpa [Def.func?] using hf⟩
    | val v => exact .inr ⟨v, rfl, by simpa [Def.val?] using hv⟩

/-- The other field is empty unless a function and a text are among the definitions. -/
theorem entry_is_last_iff (h : entryOf n ds = some m) :
    (∃ d, ds.getLast? = some d ∧ m.Is d) ↔ ¬Mixed ds := by
  rw [mixed_iff h]
  obtain ⟨d, hd, ⟨f, rfl, hf⟩ | ⟨v, rfl, hv⟩⟩ := entry_last h
  · simp [hd, Entry.Is, hf]
  · simp [hd, Entry.Is, hv]

theorem source_ok_iff (h : entryOf n ds = some m) : (∃ d, m.source = .ok d) ↔ ¬Mixed ds := by
  rw [mixed_iff h, Entry.source]
  obtain ⟨d, -, ⟨f, -, hf⟩ | ⟨v, -, hv⟩⟩ := entry_last h
  · cases hv : m.val with
    | none =>
      simp only [hf, Option.isNone_none, check_true, ok_bind]
      exact iff_of_true ⟨_, rfl⟩ (by simp)
    | some v =>
      simp only [hf, Option.isNone_some, check_false, error_bind]
      exact iff_of_false (fun ⟨_, h⟩ => nomatch h) (by simp)
  · cases hf : m.func with
    | none =>
      simp only [hv]
      exact iff_of_true ⟨_, rfl⟩ (by simp)
    | some f =>
      simp only [hv, Option.isNone_some, check_false, error_bind]
      exact iff_of_false (fun ⟨_, h⟩ => nomatch h) (by simp)

end Entries

/-- No name is there twice. Every entry has its last definition alone, and `macro_cat` trips over
none, just if no name has been defined both as a function and as a text since it was undefined. -/
theorem macro_table_iff (ops : List Op) (hfit : ∀ op ∈ ops, op.fits = true) :
    ∃ ms, ops.foldlM Op.run [] = .ok ms ∧ (ms.map Entry.name).Nodup ∧
      (∀ n, (Keyed.lookup Entry.name n ms).isSome ↔ since ops n ≠ []) ∧
      ((∀ m ∈ ms, ∃ d, (since ops m.name).getLast? = some d ∧ m.Is d) ↔
        ∀ n, ¬Mixed (since ops n)) ∧
      ((∀ n m, Keyed.lookup Entry.name n ms = some m → ∃ d, m.source = .ok d) ↔
        ∀ n, ¬Mixed (since ops n)) := by
  obtain ⟨ms, hrun, hnodup, hentry⟩ :=
    @reads_run [] (fun _ => []) ⟨List.nodup_nil, fun _ => rfl⟩ ops hfit
  have hentry : ∀ n, Keyed.lookup Entry.name n ms = entryOf n (since ops n) := hentry
  have hsome : ∀ n, (Keyed.lookup Entry.name n ms).isSome ↔ since ops n ≠ [] := fun n => by
    rw [hentry, entryOf]
    cases since ops n <;> simp
  -- a name that is defined in both ways has an entry
  have hmixed : ∀ n, Mixed (since ops n) → ∃ m, Keyed.lookup Entry.name n ms = some m :=
    fun n hmix => Option.isSome_iff_exists.mp ((hsome n).mpr fun hnil => by
      rw [hnil] at hmix
      exact hmix.1 rfl)
  refine ⟨ms, hrun, hnodup, hsome, ⟨fun h n hmix => ?_, fun h m hm => ?_⟩,
    fun h n hmix => ?_, fun h n m hm => ?_⟩
  · obtain ⟨m, hm⟩ := hmixed n hmix
    have hlast := h m (Keyed.mem_of_lookup hm)
    rw [Keyed.key_of_lookup hm] at hlast
    exact (entry_is_last_iff ((hentry n).symm.trans hm)).mp hlast hmix
  · have hm := Keyed.lookup_of_mem hnodup hm
    exact (entry_is_last_iff ((hentry m.name).symm.trans hm)).mpr (h m.name)
  · obtain ⟨m, hm⟩ := hmixed n hmix
    exact (source_ok_iff ((hentry n).symm.trans hm)).mp (h n m hm) hmix
  · exact (source_ok_iff ((hentry n).symm.trans hm)).mpr (h n)

theorem macro_table_main :
    ∃ ms, (mainDefs (ascii "/") (ascii "now") ++ [Op.macroDef (some (ascii "s1")) (ascii "port")
        (ascii "8080")]).foldlM Op.run [] = .ok ms ∧ (ms.map Entry.name).Nodup := by
  have hfit : ∀ op ∈ mainDefs (ascii "/") (ascii "now") ++
      [Op.macroDef (some (ascii "s1")) (ascii "port") (ascii "8080")], op.fits = true := by
    simp only [mainDefs, List.cons_append, List.nil_append, List.forall_mem_cons]
    decide
  obtain ⟨ms, hrun, hnodup, -⟩ := macro_table_iff _ hfit
  exact ⟨ms, hrun, hnodup⟩

/-- With `-D date=x`, `date` is a function and a text, and its use fails an assertion. -/
theorem date_redefined_trips :
    (do
      let ms ← (mainDefs (ascii "/") (ascii "now") ++
        (parseDOpt (ascii "date=x")).toList).foldlM Op.run []
      macroCat false ms (ascii "date")) = .error .assert := by
  decide +kernel

end Macro
end VTest
