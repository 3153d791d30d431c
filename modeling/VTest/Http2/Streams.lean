import VTest.Http2.Settings
import VTest.Lib.Run

/-!
# VTest.Http2.Streams

The streams of a connection. `cmd_stream` looks a stream up by the text of its ID and otherwise has
`stream_new` make one with the number that the text stands for; `next` continues from the stream
made last, not from the largest one.

* `cmdStream_cases`: what a command leaves on the list.
* `nodup_step_iff`: when a command keeps the ids distinct.
* `stream_ids_distinct_iff`: for whole sequences of commands.
-/

namespace VTest
namespace Http2

/-- `struct stream`, as far as `cmd_stream` goes. -/
structure StreamRec where
  name : Bytes
  id : Nat
  running : Bool := false
  spec : Option Bytes := none
  deriving DecidableEq, Repr

/-- `h->streams`, the newest one first, and `h->last_stream`. -/
structure Streams where
  list : List StreamRec := []
  lastStream : Nat := 0
  deriving DecidableEq, Repr

/-- The name that `stream_new` gives to a stream: `next` stands for a number. -/
def streamName (h : Streams) (name : Bytes) : Bytes :=
  if name = ascii "next" then
    if 0 < h.lastStream then Http1.decimalInt (toInt32 (h.lastStream + 2)) else Http1.decimalInt 1
  else name

def Streams.streamNew (h : Streams) (name : Bytes) : Res Streams := do
  let name := streamName h name
  let id ← strtou32 name
  fatalIf (decide (2 ^ 31 ≤ id))
  return { list := { name, id } :: h.list, lastStream := id }

/-- A change to the stream at position `k`. -/
def Streams.update (h : Streams) (k : Nat) (f : StreamRec → StreamRec) : Streams :=
  { h with list := h.list.modify k f }

/-- `stream_start`. -/
def streamStart (k : Nat) (h : Streams) : Streams := h.update k fun s => { s with running := true }

/-- `stream_wait`. The thread returns NULL; there is one to join only if the stream runs. -/
def streamWait (k : Nat) (h : Streams) : Res Streams :=
  if (h.list[k]?.map StreamRec.running).getD false then
    .ok (h.update k fun s => { s with running := false })
  else .error .ub

/-- "Don't muck about with a running client". -/
def streamIdle (k : Nat) (h : Streams) : Res Streams :=
  if (h.list[k]?.map StreamRec.running).getD false then streamWait k h else .ok h

/-- The arguments behind the ID. -/
def streamArgs (k : Nat) : List Bytes → Streams → Res Streams
  | [], h => .ok h
  | a :: av, h =>
    if a = ascii "-wait" then do
      let h ← streamWait k h
      streamArgs k av h
    else do
      let h ← streamIdle k h
      if a = ascii "-start" then streamArgs k av (streamStart k h)
      else if a = ascii "-run" then do
        let h ← streamWait k (streamStart k h)
        streamArgs k av h
      else do
        fatalIf (a.head? = some 45)
        streamArgs k av (h.update k fun s => { s with spec := some a })

/-- `cmd_stream`, on the arguments behind the word `stream`. -/
def cmdStream (h : Streams) : List Bytes → Res Streams
  | [] => .error .ub
  | name :: av =>
    match h.list.findIdx? fun s => s.name = name with
    | some k => streamArgs k av h
    | none => do
      let h ← h.streamNew name
      streamArgs 0 av h

/-! ## What a command leaves on the list -/

/-- The names and ids on the list. -/
def Streams.keys (h : Streams) : List (Bytes × Nat) := h.list.map fun s => (s.name, s.id)

def Streams.ids (h : Streams) : List Nat := h.list.map StreamRec.id

theorem Streams.ids_eq (h : Streams) : h.ids = h.keys.map Prod.snd := by
  rw [Streams.ids, Streams.keys, List.map_map]
  rfl

/-- The same streams under the same names: only their threads and specifications differ. -/
def SameKeys (h h' : Streams) : Prop := h'.keys = h.keys ∧ h'.lastStream = h.lastStream

theorem SameKeys.trans {h h' h'' : Streams} (h1 : SameKeys h h') (h2 : SameKeys h' h'') :
    SameKeys h h'' := ⟨h2.1.trans h1.1, h2.2.trans h1.2⟩

theorem SameKeys.update (h : Streams) (k : Nat) {f : StreamRec → StreamRec}
    (hf : ∀ s, (f s).name = s.name ∧ (f s).id = s.id) : SameKeys h (h.update k f) := by
  refine ⟨?_, rfl⟩
  have hkey : (fun s : StreamRec => (s.name, s.id)) ∘ f = fun s => (s.name, s.id) :=
    funext fun s => Prod.ext (hf s).1 (hf s).2
  apply List.ext_getElem?
  intro i
  simp only [Streams.keys, Streams.update, List.getElem?_map, List.getElem?_modify]
  split
  · rw [Option.map_eq_map, Option.map_map, hkey]
  · simp

theorem SameKeys.wait {k : Nat} {h h' : Streams} (hw : streamWait k h = .ok h') :
    SameKeys h h' := by
  unfold streamWait at hw
  split at hw
  · cases hw
    exact .update h k fun _ => ⟨rfl, rfl⟩
  · cases hw

theorem SameKeys.idle {k : Nat} {h h' : Streams} (hw : streamIdle k h = .ok h') :
    SameKeys h h' := by
  unfold streamIdle at hw
  split at hw
  · exact .wait hw
  · cases hw
    exact ⟨rfl, rfl⟩

theorem SameKeys.start (k : Nat) (h : Streams) : SameKeys h (streamStart k h) :=
  .update h k fun _ => ⟨rfl, rfl⟩

theorem SameKeys.args {k : Nat} : ∀ (av : List Bytes) (h h' : Streams),
    streamArgs k av h = .ok h' → SameKeys h h' := by
  intro av
  induction av with
  | nil =>
    intro h h' hr
    cases hr
    exact ⟨rfl, rfl⟩
  | cons a av ih =>
    intro h h' hr
    rw [streamArgs] at hr
    split at hr
    · obtain ⟨h1, hw, hr⟩ := bind_eq_ok.mp hr
      exact (SameKeys.wait hw).trans (ih _ _ hr)
    · obtain ⟨h1, hw, hr⟩ := bind_eq_ok.mp hr
      refine (SameKeys.idle hw).trans ?_
      split at hr
      · exact (SameKeys.start k h1).trans (ih _ _ hr)
      · split at hr
        · obtain ⟨h2, hw2, hr⟩ := bind_eq_ok.mp hr
          exact ((SameKeys.start k h1).trans (.wait hw2)).trans (ih _ _ hr)
        · obtain ⟨-, hr⟩ := fatalIf_bind_eq_ok.mp hr
          exact (SameKeys.update h1 k (f := fun s => { s with spec := some a })
            fun _ => ⟨rfl, rfl⟩).trans (ih _ _ hr)

/-- The number that an ID stands for. -/
def idNumber (name : Bytes) : Nat := (strtoul 0 name).1 % 2 ^ 32

/-- The number that `next` stands for. -/
def Streams.nextId (h : Streams) : Nat := if 0 < h.lastStream then h.lastStream + 2 else 1

/-- What is known of every list of streams: a name is a text of the stream's id. -/
structure Streams.Named (h : Streams) : Prop where
  number : ∀ p ∈ h.keys, strtou32 p.1 = .ok p.2
  last : h.lastStream < 2 ^ 31

theorem strtou32_eq_ok {name : Bytes} {id : Nat} (h : strtou32 name = .ok id) :
    id = idNumber name := by
  unfold strtou32 at h
  obtain ⟨-, h⟩ := fatalIf_bind_eq_ok.mp h
  cases h
  rfl

/-- `next` is no number, so it is never the name of a stream. -/
theorem Streams.Named.next_not_mem {h : Streams} (hn : h.Named) (id : Nat) :
    (ascii "next", id) ∉ h.keys := by
  intro hm
  have := hn.number _ hm
  exact absurd this (by
    have : strtou32 (ascii "next") = .error .fatal := by decide
    rw [this]
    exact fun he => nomatch he)

theorem streamNew_eq_ok {name : Bytes} {h h' : Streams} (hr : h.streamNew name = .ok h') :
    ∃ id, strtou32 (streamName h name) = .ok id ∧ id < 2 ^ 31 ∧
      h' = { list := { name := streamName h name, id } :: h.list, lastStream := id } := by
  obtain ⟨id, hid, hr⟩ := bind_eq_ok.mp hr
  obtain ⟨hlt, hr⟩ := fatalIf_bind_eq_ok.mp hr
  cases hr
  exact ⟨id, hid, by simpa using hlt, rfl⟩

/-- The number of the name that `next` becomes. Past the last 31-bit number the text is that of a
negative `int`, whose number has the top bit set. -/
theorem next_number {h : Streams} (hl : h.lastStream < 2 ^ 31) {id : Nat}
    (hid : strtou32 (streamName h (ascii "next")) = .ok id) (hlt : id < 2 ^ 31) :
    id = h.nextId := by
  have hread : ∀ n : Nat, 0 < n → n < 2 ^ 31 →
      idNumber (Http1.decimalInt (toInt32 n)) = n := by
    intro n h0 hn
    rw [toInt32_of_lt hn, Http1.decimalInt, if_neg (by omega), Int.toNat_natCast, idNumber,
      strtoul_zero_decimal h0 (by omega)]
    exact Nat.mod_eq_of_lt (by omega)
  have hname := strtou32_eq_ok hid
  rw [streamName, if_pos rfl] at hname
  rw [Streams.nextId]
  split at hname
  · rename_i hpos
    rw [if_pos hpos]
    by_cases h31 : h.lastStream + 2 < 2 ^ 31
    · rw [hname, hread _ (by omega) h31]
    · rcases (by omega : h.lastStream = 2 ^ 31 - 2 ∨ h.lastStream = 2 ^ 31 - 1) with e | e
      · rw [e] at hname
        have : idNumber (Http1.decimalInt (toInt32 (2 ^ 31 - 2 + 2))) = 2 ^ 31 := by decide
        omega
      · rw [e] at hname
        have : idNumber (Http1.decimalInt (toInt32 (2 ^ 31 - 1 + 2))) = 2 ^ 31 + 1 := by decide
        omega
  · rename_i hpos
    rw [if_neg hpos, hname]
    decide

/-- A command on an ID either finds a stream of that name or puts a new one in front. -/
theorem cmdStream_cases {h h' : Streams} {name : Bytes} {av : List Bytes}
    (hr : cmdStream h (name :: av) = .ok h') :
    ((∃ id, (name, id) ∈ h.keys) ∧ SameKeys h h') ∨
    ((∀ id, (name, id) ∉ h.keys) ∧ ∃ id, strtou32 (streamName h name) = .ok id ∧ id < 2 ^ 31 ∧
      h'.keys = (streamName h name, id) :: h.keys ∧ h'.lastStream = id) := by
  rw [cmdStream] at hr
  split at hr
  · rename_i k hk
    left
    obtain ⟨hlt, hname, -⟩ := List.findIdx?_eq_some_iff_getElem.mp hk
    refine ⟨⟨h.list[k].id, List.mem_map.mpr ⟨h.list[k], List.getElem_mem hlt, ?_⟩⟩, .args _ _ _ hr⟩
    rw [of_decide_eq_true hname]
  · rename_i hk
    right
    obtain ⟨h1, hnew, hr⟩ := bind_eq_ok.mp hr
    obtain ⟨id, hid, hlt, rfl⟩ := streamNew_eq_ok hnew
    refine ⟨?_, id, hid, hlt, (SameKeys.args _ _ _ hr).1, (SameKeys.args _ _ _ hr).2⟩
    intro id' hm
    obtain ⟨s, hs, he⟩ := List.mem_map.mp hm
    have := List.findIdx?_eq_none_iff.mp hk s hs
    simp only [decide_eq_false_iff_not] at this
    exact this (congrArg Prod.fst he)

theorem Streams.Named.step {h h' : Streams} {c : List Bytes} (hn : h.Named)
    (hr : cmdStream h c = .ok h') : h'.Named := by
  cases c with
  | nil => cases hr
  | cons name av =>
    rcases cmdStream_cases hr with ⟨-, hk, hl⟩ | ⟨-, id, hid, hlt, hk, hl⟩
    · exact ⟨hk ▸ hn.number, hl ▸ hn.last⟩
    · refine ⟨?_, hl ▸ hlt⟩
      rw [hk]
      intro p hp
      rcases List.mem_cons.mp hp with rfl | hp
      · exact hid
      · exact hn.number p hp

theorem Streams.Named.reach {cs : List (List Bytes)} {h : Streams}
    (hr : run cmdStream {} cs = .ok h) : h.Named :=
  run_keeps (fun _ _ _ hn hs => hn.step hs) cs {} h ⟨by simp [Streams.keys], by decide⟩ hr

/-! ## Distinct ids -/

/-- A command that makes no second stream of an id: the number of an ID is in use only by the stream
that this very text names, and the number of `next` is not in use. -/
def Unambiguous (h : Streams) : List Bytes → Prop
  | [] => True
  | name :: _ =>
    if name = ascii "next" then h.nextId ∉ h.ids
    else ∀ p ∈ h.keys, p.2 = idNumber name → p.1 = name

instance (h : Streams) : ∀ c : List Bytes, Decidable (Unambiguous h c)
  | [] => inferInstanceAs (Decidable True)
  | name :: _ => inferInstanceAs (Decidable (if name = ascii "next" then h.nextId ∉ h.ids
      else ∀ p ∈ h.keys, p.2 = idNumber name → p.1 = name))

theorem eq_of_nodup_ids {h : Streams} (hd : h.ids.Nodup) {p q : Bytes × Nat} (hp : p ∈ h.keys)
    (hq : q ∈ h.keys) (he : p.2 = q.2) : p = q := by
  rw [Streams.ids_eq] at hd
  exact List.inj_on_of_nodup_map hd hp hq he

/-- When a command keeps the ids distinct. -/
theorem nodup_step_iff {h h' : Streams} {c : List Bytes} (hn : h.Named) (hd : h.ids.Nodup)
    (hr : cmdStream h c = .ok h') : h'.ids.Nodup ↔ Unambiguous h c := by
  cases c with
  | nil => cases hr
  | cons name av =>
    rw [Unambiguous]
    rcases cmdStream_cases hr with ⟨⟨id, hm⟩, hk, -⟩ | ⟨hno, id, hid, hlt, hk, -⟩
    · -- the stream exists; by distinctness no other one has its id
      have hne : name ≠ ascii "next" := by
        rintro rfl
        exact hn.next_not_mem id hm
      rw [if_neg hne, Streams.ids_eq h', hk, ← Streams.ids_eq]
      refine iff_of_true hd fun p hp he => ?_
      have hnum := strtou32_eq_ok (hn.number _ hm)
      exact congrArg Prod.fst (eq_of_nodup_ids hd hp hm (he.trans hnum.symm))
    · have hfresh : h'.ids.Nodup ↔ id ∉ h.ids := by
        rw [Streams.ids_eq h', hk, List.map_cons, ← Streams.ids_eq, List.nodup_cons]
        exact ⟨And.left, fun hi => ⟨hi, hd⟩⟩
      rw [hfresh]
      split
      · rename_i he
        subst he
        rw [next_number hn.last hid hlt]
      · rename_i hne
        have hnum := strtou32_eq_ok hid
        rw [streamName, if_neg hne] at hnum
        rw [hnum, Streams.ids_eq]
        constructor
        · intro hi p hp he
          exact absurd (List.mem_map.mpr ⟨p, hp, he⟩) hi
        · intro hall hi
          obtain ⟨p, hp, he⟩ := List.mem_map.mp hi
          have hname : p.1 = name := hall p hp he
          exact hno p.2 (hname ▸ hp)

/-- After each of the commands the ids are distinct, and each `next` made a stream whose id was not
in use. -/
structure Distinct (cs : List (List Bytes)) : Prop where
  ids : ∀ pre h, pre <+: cs → run cmdStream {} pre = .ok h → h.ids.Nodup
  next : ∀ pre av h h', pre ++ [ascii "next" :: av] <+: cs → run cmdStream {} pre = .ok h →
    cmdStream h (ascii "next" :: av) = .ok h' → ∃ id, h'.ids = id :: h.ids ∧ id ∉ h.ids

theorem cmdStream_next {h h' : Streams} {av : List Bytes} (hn : h.Named)
    (hr : cmdStream h (ascii "next" :: av) = .ok h') : ∃ id, h'.ids = id :: h.ids := by
  rcases cmdStream_cases hr with ⟨⟨id, hm⟩, -⟩ | ⟨-, id, -, -, hk, -⟩
  · exact absurd hm (hn.next_not_mem id)
  · exact ⟨id, by rw [Streams.ids_eq, Streams.ids_eq, hk, List.map_cons]⟩

/-- It is enough to look at the lists after the commands. -/
theorem Distinct.of_ids {cs : List (List Bytes)}
    (hids : ∀ pre h, pre <+: cs → run cmdStream {} pre = .ok h → h.ids.Nodup) : Distinct cs := by
  refine ⟨hids, fun pre av h h' hpre hr hs => ?_⟩
  obtain ⟨id, hid⟩ := cmdStream_next (.reach hr) hs
  have hd := hids _ h' hpre (by rw [run_append, hr, ok_bind, run_cons, hs]; rfl)
  rw [hid] at hd
  exact ⟨id, hid, (List.nodup_cons.mp hd).1⟩

/-- For every sequence of commands in which none fails, the ids stay distinct exactly if no command
uses another text, or `next`, for the number of a stream that exists. -/
theorem stream_ids_distinct_iff {cs : List (List Bytes)} {h : Streams}
    (hr : run cmdStream {} cs = .ok h) :
    Distinct cs ↔ Along cmdStream Unambiguous {} cs := by
  induction cs using List.reverseRecOn generalizing h with
  | nil =>
    refine iff_of_true (.of_ids fun pre h' hpre hr' => ?_) trivial
    rw [List.prefix_nil.mp hpre] at hr'
    cases hr'
    exact List.nodup_nil
  | append_singleton cs c ih =>
    rw [run_append] at hr
    obtain ⟨h1, h1r, hs⟩ := bind_eq_ok.mp hr
    rw [run_cons] at hs
    obtain ⟨h2, hs, he⟩ := bind_eq_ok.mp hs
    cases he
    rw [Along.snoc_iff, ← ih h1r]
    constructor
    · intro hd
      refine ⟨.of_ids fun pre h' hpre => hd.ids pre h' (hpre.trans (List.prefix_append _ _)), ?_⟩
      intro s' hs'
      cases h1r.symm.trans hs'
      have hd1 := hd.ids cs h1 (List.prefix_append _ _) h1r
      exact (nodup_step_iff (.reach h1r) hd1 hs).mp
        (hd.ids _ h (List.prefix_refl _) (by rw [run_append, h1r, ok_bind, run_cons, hs]; rfl))
    · rintro ⟨hd, hu⟩
      refine .of_ids fun pre h' hpre hr' => ?_
      rcases List.prefix_concat_iff.mp (by simpa using hpre) with rfl | hpre
      · rw [run_append, h1r, ok_bind, run_cons, hs] at hr'
        cases hr'
        exact (nodup_step_iff (.reach h1r) (hd.ids cs h1 (List.prefix_refl _) h1r) hs).mpr
          (hu h1 h1r)
      · exact hd.ids pre h' hpre hr'

/-- Streams 0 and 1, one more, and the second one again. -/
theorem stream_ids_distinct_next :
    Distinct [[ascii "0"], [ascii "1", ascii "rxresp"], [ascii "next"],
      [ascii "1", ascii "-run"]] := by
  have hr : run cmdStream {} [[ascii "0"], [ascii "1", ascii "rxresp"], [ascii "next"],
      [ascii "1", ascii "-run"]] = .ok ⟨[⟨ascii "3", 3, false, none⟩,
        ⟨ascii "1", 1, false, some (ascii "rxresp")⟩, ⟨ascii "0", 0, false, none⟩], 3⟩ := by decide
  refine (stream_ids_distinct_iff hr).mpr ?_
  exact .cons_of_eq _ rfl (by decide) (.cons_of_eq _ rfl (by decide)
    (.cons_of_eq _ rfl (by decide) (.cons_of_eq _ rfl (by decide) trivial)))

/-- Two texts of one number make two streams of that number, and so does `next` after a stream
that is not the largest. -/
theorem stream_id_twice :
    (∃ h, run cmdStream {} [[ascii "1"], [ascii "0x1"]] = .ok h ∧ h.ids = [1, 1]) ∧
    (∃ h, run cmdStream {} [[ascii "3"], [ascii "1"], [ascii "next"]] = .ok h ∧
      h.ids = [3, 1, 3]) :=
  ⟨⟨_, rfl, by decide⟩, ⟨_, rfl, by decide⟩⟩

end Http2
end VTest
