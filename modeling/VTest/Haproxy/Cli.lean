import VTest.Lib.Defined

/-!
# VTest.Haproxy.Cli

The reader of the HAProxy CLI (`vtc_haproxy.c`): `haproxy_cli_recv` fills `rxbuf` until the
connection is closed. It asks `recv` for `HAPROXY_CLI_RECV_LEN` bytes each time, whatever is left of
the buffer, and takes what it got from `left`, a `size_t`.

What `recv` returns is not up to the reader, so a run is one ended a list of turns of its loop. The
memory of `rxbuf` is the list of its bytes, and a write that does not fit into it is undefined.

* `Counted.got`: what a `recv` with room for all it asks for leaves.
* `cli_recv_within_iff`: the reader keeps within its buffer if and only if each `recv` has that
  room.
* `two_megabytes_overrun`: the answer that the buffer of `haproxy_cli_new` is too small for.
-/

namespace VTest
namespace Haproxy

/-- `HAPROXY_CLI_RECV_LEN`. -/
def haproxyCliRecvLen : Nat := 2 ^ 14

/-- What a successful `recv` stores: something, and not more than it was asked for. -/
abbrev Chunk := { d : Bytes // d ≠ [] ∧ d.length ≤ haproxyCliRecvLen }

/-- A turn of the loop. -/
inductive Turn where
  /-- `vtc_error` is set. -/
  | stop
  /-- `recv` fails with `EINTR` or `EAGAIN`. -/
  | again
  /-- `recv` fails with something else. -/
  | failed
  | got (d : Chunk)
  /-- `recv` returns 0. -/
  | closed
  deriving DecidableEq

/-- The receive buffer of a CLI client, as it was allocated. -/
structure HaproxyCli where
  rxbufSz : UInt64
  rxbuf : Bytes
  alloc : rxbuf.length = rxbufSz.toNat

/-- The buffer that `haproxy_cli_new` and `haproxy_mcli_new` allocate, of memory that holds
anything. -/
def haproxyCliNew (rxbuf : Bytes) (h : rxbuf.length = 2048 * 1024) : HaproxyCli where
  rxbufSz := 2048 * 1024
  rxbuf := rxbuf
  alloc := h

/-- The variables of `haproxy_cli_recv`, whether its loop was left, and whether `hc->sock` is
open. -/
structure Rd where
  rxbuf : Bytes
  rdz : UInt64 := 0
  left : UInt64
  off : UInt64 := 0
  ended : Bool := false
  sock : Bool := true
  deriving DecidableEq

def HaproxyCli.start (hc : HaproxyCli) : Rd where
  rxbuf := hc.rxbuf
  left := hc.rxbufSz - 1

/-- The connection is closed: what was read has to end a line. -/
def Rd.close (rd : Rd) : Res Rd :=
  if rd.rdz = 0 then .ok { rd with ended := true, sock := false }
  else
    match rd.rxbuf[(rd.rdz - 1).toNat]? with
    | none => .error .ub
    | some b => do
      fatalIf (b ≠ 10)
      return { rd with ended := true, sock := false }

/-- The end of the loop body. -/
def Rd.count (rd : Rd) (ret : UInt64) : Rd :=
  { rd with rdz := rd.rdz + ret, left := rd.left - ret, off := rd.off + ret }

def Rd.got (rd : Rd) (d : Bytes) : Res Rd := do
  let rxbuf ← poke rd.rxbuf rd.off.toNat d
  return Rd.count { rd with rxbuf } (UInt64.ofNat d.length)

/-- A turn with `left > 0`. -/
def Rd.turn (rd : Rd) : Turn → Res Rd
  | .stop => .ok { rd with ended := true }
  | .again => .ok rd
  | .failed => .error .fatal
  | .got d => rd.got d.1
  | .closed => rd.close

def recvTurn (rd : Rd) (t : Turn) : Res Rd :=
  if rd.ended || rd.left = 0 then .ok rd else rd.turn t

/-- `haproxy_cli_recv`. If the turns end before the loop does, then it waits for another `recv`. -/
def haproxyCliRecv (hc : HaproxyCli) (ts : List Turn) : Res Rd := do
  let rd ← run recvTurn hc.start ts
  if rd.ended || rd.left = 0 then do
    let rxbuf ← poke rd.rxbuf rd.rdz.toNat [0]
    return { rd with rxbuf }
  else .error .fuel

/-! ## Keeping within the buffer -/

/-- `recv` is called in this turn. -/
def Rd.Calls (rd : Rd) (t : Turn) : Prop := rd.ended = false ∧ rd.left ≠ 0 ∧ t ≠ .stop

/-- The counters agree, and nothing has wrapped. -/
structure Agree (hc : HaproxyCli) (rd : Rd) : Prop where
  off : rd.rdz = rd.off
  left : rd.left.toNat + rd.rdz.toNat = hc.rxbufSz.toNat - 1

/-- The reader keeps within its buffer, throughout its run and with the NUL at the end. -/
structure Within (hc : HaproxyCli) (ts : List Turn) : Prop where
  agree : Along recvTurn (fun rd _ => Agree hc rd) hc.start ts
  asked : Along recvTurn (fun rd t => rd.Calls t → haproxyCliRecvLen ≤ rd.left.toNat) hc.start ts
  stored : ∀ rd, run recvTurn hc.start ts = .ok rd → Agree hc rd ∧ rd.rdz.toNat < hc.rxbufSz.toNat
  defined : haproxyCliRecv hc ts ≠ .error .ub

/-- The loop goes on after the turn. -/
def Turn.GoesOn : Turn → Prop
  | .again | .got _ => True
  | .stop | .failed | .closed => False

/-- The bytes of a turn. -/
def Turn.bytes : Turn → Bytes
  | .got d => d.1
  | .stop | .again | .failed | .closed => []

def received (ts : List Turn) : Nat := (ts.flatMap Turn.bytes).length

/-- With `n` bytes in a buffer for `cap`: as long as there is room for one byte when `recv` is
called, there is room for all it is asked for. -/
def Room (cap n : Nat) (ts : List Turn) : Prop :=
  ∀ pre t post, ts = pre ++ t :: post → (∀ x ∈ pre, x.GoesOn) → t ≠ .stop →
    n + received pre < cap → n + received pre + haproxyCliRecvLen ≤ cap

section

variable {hc : HaproxyCli} {rd : Rd} {cap n : Nat} {t : Turn} {ts : List Turn}

theorem received_cons (t : Turn) (ts : List Turn) :
    received (t :: ts) = t.bytes.length + received ts := by
  rw [received, List.flatMap_cons, List.length_append, received]

theorem room_cons_iff : Room cap n (t :: ts) ↔
    (t ≠ .stop → n < cap → n + haproxyCliRecvLen ≤ cap) ∧
      (t.GoesOn → Room cap (n + t.bytes.length) ts) := by
  constructor
  · intro h
    refine ⟨h [] t ts rfl (fun x hx => absurd hx List.not_mem_nil), ?_⟩
    intro ht pre t' post hts hpre
    have hcons := h (t :: pre) t' post (by rw [hts]; rfl) (List.forall_mem_cons.mpr ⟨ht, hpre⟩)
    rw [received_cons, ← Nat.add_assoc] at hcons
    exact hcons
  · rintro ⟨hhead, htail⟩ pre t' post hts hpre
    cases pre with
    | nil =>
      obtain ⟨rfl, _⟩ := List.cons.inj hts
      exact hhead
    | cons x pre =>
      obtain ⟨rfl, hts'⟩ := List.cons.inj hts
      obtain ⟨hx, hpre⟩ := List.forall_mem_cons.mp hpre
      rw [received_cons, ← Nat.add_assoc]
      exact htail hx pre t' post hts' hpre

/-- A full buffer needs no room. -/
theorem room_of_full (h : cap ≤ n) (ts : List Turn) : Room cap n ts := by
  intro pre t post _ _ _ hlt
  omega

/-- `n` bytes were received, and the counters say so. -/
structure Counted (hc : HaproxyCli) (rd : Rd) (n : Nat) : Prop where
  agree : Agree hc rd
  rdz : rd.rdz.toNat = n
  rxbuf : rd.rxbuf.length = hc.rxbufSz.toNat

theorem HaproxyCli.start_counted (h : 2 ≤ hc.rxbufSz.toNat) : Counted hc hc.start 0 where
  agree := by
    refine ⟨rfl, ?_⟩
    show (hc.rxbufSz - 1).toNat + 0 = _
    rw [UInt64.toNat_sub_of_le _ _ (UInt64.le_iff_toNat_le.mpr (by
      show 1 ≤ _
      omega))]
    rfl
  rdz := rfl
  rxbuf := hc.alloc

/-- Nothing left is all received. -/
theorem Counted.full (h : Counted hc rd n) (h0 : rd.left = 0) : hc.rxbufSz.toNat - 1 ≤ n := by
  have hleft := h.agree.left
  rw [h0, h.rdz] at hleft
  exact Nat.le_of_eq (hleft.symm.trans (Nat.zero_add n))

theorem Rd.got_of_fits {d : Bytes} (h : rd.off.toNat + d.length ≤ rd.rxbuf.length) :
    rd.got d = .ok (Rd.count { rd with rxbuf := put rd.rxbuf rd.off.toNat d }
      (UInt64.ofNat d.length)) := by
  rw [Rd.got, poke_of_le h]
  rfl

theorem toNat_ofNat_length (d : Chunk) : (UInt64.ofNat d.1.length).toNat = d.1.length :=
  UInt64.toNat_ofNat_of_lt' (lt_of_le_of_lt d.2.2 (by decide))

theorem Counted.got (h : Counted hc rd n) (d : Chunk) (hroom : haproxyCliRecvLen ≤ rd.left.toNat) :
    ∃ rd', rd.got d.1 = .ok rd' ∧ Counted hc rd' (n + d.1.length) ∧ rd'.ended = rd.ended := by
  obtain ⟨⟨hoff, hleft⟩, hrdz, hlen⟩ := h
  have hsz := hc.rxbufSz.toNat_lt
  have hret := toNat_ofNat_length d
  have hle : d.1.length ≤ rd.left.toNat := d.2.2.trans hroom
  have hpos : 0 < d.1.length := List.length_pos_iff.mpr d.2.1
  have hadd : (rd.rdz + UInt64.ofNat d.1.length).toNat = n + d.1.length := by
    rw [UInt64.toNat_add, hret, hrdz, Nat.mod_eq_of_lt (by omega)]
  have hsub : (rd.left - UInt64.ofNat d.1.length).toNat = rd.left.toNat - d.1.length := by
    rw [UInt64.toNat_sub_of_le _ _ (UInt64.le_iff_toNat_le.mpr (by rw [hret]; exact hle)), hret]
  have hfit : rd.off.toNat + d.1.length ≤ rd.rxbuf.length := by
    rw [← hoff, hlen]
    omega
  refine ⟨_, Rd.got_of_fits hfit, ⟨⟨?_, ?_⟩, hadd, (length_put hfit).trans hlen⟩, rfl⟩
  · show rd.rdz + _ = rd.off + _
    rw [hoff]
  · show (rd.left - _).toNat + (rd.rdz + _).toNat = _
    rw [hadd, hsub]
    omega

theorem Rd.close_eq_ok {rd' : Rd} (h : rd.close = .ok rd') :
    rd' = { rd with ended := true, sock := false } := by
  rw [Rd.close] at h
  split at h
  · cases h
    rfl
  · split at h
    · cases h
    · obtain ⟨_, h⟩ := fatalIf_bind_eq_ok.mp h
      cases h
      rfl

/-- The end of the loop leaves the counters alone. -/
theorem Counted.end (h : Counted hc rd n) (sock : Bool) :
    Counted hc { rd with ended := true, sock } n :=
  ⟨⟨h.agree.off, h.agree.left⟩, h.rdz, h.rxbuf⟩

theorem Counted.close (h : Counted hc rd n) : Defined (Counted hc · n) rd.close := by
  rw [Rd.close]
  split
  · exact .ok (h.end false)
  · rename_i h0
    have hpos : rd.rdz.toNat ≠ 0 := fun hz => h0 (UInt64.toNat_inj.mp hz)
    have hidx : (rd.rdz - 1).toNat < rd.rxbuf.length := by
      have hle := h.agree.left
      have hone : (rd.rdz - 1).toNat = rd.rdz.toNat - 1 :=
        UInt64.toNat_sub_of_le _ _ (UInt64.le_iff_toNat_le.mpr (Nat.pos_of_ne_zero hpos))
      rw [hone, h.rxbuf]
      omega
    rw [List.getElem?_eq_getElem hidx]
    exact .fatalIf_bind fun _ => .ok (h.end false)

/-! ## Turns -/

theorem recvTurn_idle (h : rd.ended = true ∨ rd.left = 0) (t : Turn) : recvTurn rd t = .ok rd := by
  rw [recvTurn, if_pos]
  rw [Bool.or_eq_true, decide_eq_true_iff]
  exact h

theorem recvTurn_of_left (h : rd.ended = false) (h0 : rd.left ≠ 0) (t : Turn) :
    recvTurn rd t = rd.turn t := by
  rw [recvTurn, if_neg]
  rw [h, Bool.false_or, decide_eq_true_iff]
  exact h0

/-- A turn is defined if what `recv` is asked for fits. -/
theorem Counted.turn (h : Counted hc rd n)
    (hasked : rd.Calls t → haproxyCliRecvLen ≤ rd.left.toNat) :
    Defined (fun rd' => ∃ n, Counted hc rd' n) (recvTurn rd t) := by
  by_cases hidle : rd.ended = true ∨ rd.left = 0
  · rw [recvTurn_idle hidle]
    exact .ok ⟨n, h⟩
  obtain ⟨hgo, h0⟩ := not_or.mp hidle
  rw [Bool.not_eq_true] at hgo
  rw [recvTurn_of_left hgo h0]
  cases t with
  | stop => exact .ok ⟨n, h.end rd.sock⟩
  | again => exact .ok ⟨n, h⟩
  | failed => exact .fatal
  | got d =>
    obtain ⟨rd', hgot, hc', _⟩ := h.got d (hasked ⟨hgo, h0, Turn.noConfusion⟩)
    rw [Rd.turn, hgot]
    exact .ok ⟨_, hc'⟩
  | closed => exact h.close.mono fun rd' h' => ⟨n, h'⟩

/-- With room, what is asked for fits. -/
theorem Counted.asked (h : Counted hc rd n)
    (hroom : rd.ended = true ∨ Room (hc.rxbufSz.toNat - 1) n (t :: ts)) (hcalls : rd.Calls t) :
    haproxyCliRecvLen ≤ rd.left.toNat := by
  obtain ⟨hgo, h0, ht⟩ := hcalls
  have hroom := hroom.resolve_left (by rw [hgo]; exact Bool.noConfusion)
  have hhead := (room_cons_iff.mp hroom).1 ht
  have hleft := h.agree.left
  have hrdz := h.rdz
  have hpos : rd.left.toNat ≠ 0 := fun hz => h0 (UInt64.toNat_inj.mp hz)
  have := hhead (by omega)
  omega

/-- A turn with room leaves room for the turns after it. -/
theorem Counted.step (h : Counted hc rd n)
    (hroom : rd.ended = true ∨ Room (hc.rxbufSz.toNat - 1) n (t :: ts)) {rd' : Rd}
    (hstep : recvTurn rd t = .ok rd') :
    ∃ n', Counted hc rd' n' ∧ (rd'.ended = true ∨ Room (hc.rxbufSz.toNat - 1) n' ts) := by
  by_cases hidle : rd.ended = true ∨ rd.left = 0
  · cases (recvTurn_idle hidle t).symm.trans hstep
    exact ⟨n, h, hidle.imp_right fun h0 => room_of_full (h.full h0) ts⟩
  obtain ⟨hend, h0⟩ := not_or.mp hidle
  have hgo := Bool.not_eq_true _ ▸ hend
  have htail := (room_cons_iff.mp (hroom.resolve_left hend)).2
  rw [recvTurn_of_left hgo h0] at hstep
  cases t with
  | stop =>
    cases hstep
    exact ⟨n, h.end rd.sock, Or.inl rfl⟩
  | again =>
    cases hstep
    exact ⟨n, h, Or.inr (htail trivial)⟩
  | failed => cases hstep
  | got d =>
    obtain ⟨rd1, hgot, h1, _⟩ := h.got d (h.asked hroom ⟨hgo, h0, Turn.noConfusion⟩)
    cases hgot.symm.trans hstep
    exact ⟨_, h1, Or.inr (htail trivial)⟩
  | closed =>
    cases Rd.close_eq_ok hstep
    exact ⟨n, h.end false, Or.inl rfl⟩

/-- With room, each turn finds counters that agree and asks for what fits. -/
theorem Counted.along (ts : List Turn) : ∀ (rd : Rd) (n : Nat), Counted hc rd n →
    (rd.ended = true ∨ Room (hc.rxbufSz.toNat - 1) n ts) →
    Along recvTurn (fun rd t => Agree hc rd ∧ (rd.Calls t → haproxyCliRecvLen ≤ rd.left.toNat))
      rd ts := by
  induction ts with
  | nil => exact fun _ _ _ _ => trivial
  | cons t ts ih =>
    intro rd n h hroom
    refine ⟨⟨h.agree, h.asked hroom⟩, fun rd' hstep => ?_⟩
    obtain ⟨n', h', hroom'⟩ := h.step hroom hstep
    exact ih rd' n' h' hroom'

/-- If each `recv` asks for what fits, then there was the room. -/
theorem Counted.room (ts : List Turn) : ∀ (rd : Rd) (n : Nat), Counted hc rd n →
    rd.ended = false →
    Along recvTurn (fun rd t => rd.Calls t → haproxyCliRecvLen ≤ rd.left.toNat) rd ts →
    Room (hc.rxbufSz.toNat - 1) n ts := by
  induction ts with
  | nil =>
    intro rd n _ _ _ pre t post hts
    exact absurd hts.symm (List.append_ne_nil_of_right_ne_nil _ (List.cons_ne_nil _ _))
  | cons t ts ih =>
    intro rd n h hgo hal
    have hleft := h.agree.left
    have hrdz := h.rdz
    by_cases h0 : rd.left = 0
    · exact room_of_full (h.full h0) _
    refine room_cons_iff.mpr ⟨fun ht _ => ?_, fun ht => ?_⟩
    · have := hal.1 ⟨hgo, h0, ht⟩
      omega
    · have hstep := recvTurn_of_left hgo h0 t
      cases t with
      | stop => cases ht
      | again => exact ih rd n h hgo (hal.2 rd hstep)
      | failed => cases ht
      | got d =>
        obtain ⟨rd', hgot, h', hend⟩ := h.got d (hal.1 ⟨hgo, h0, Turn.noConfusion⟩)
        exact ih rd' _ h' (hend.trans hgo) (hal.2 rd' (hstep.trans hgot))
      | closed => cases ht

end

/-- **When the reader keeps within its buffer**: if and only if each `recv`, as long as the buffer
is not full, finds room for the `HAPROXY_CLI_RECV_LEN` bytes it is asked for. -/
theorem cli_recv_within_iff {hc : HaproxyCli} (h : 2 ≤ hc.rxbufSz.toNat) (ts : List Turn) :
    Within hc ts ↔ Room (hc.rxbufSz.toNat - 1) 0 ts := by
  have hstart := HaproxyCli.start_counted h
  constructor
  · intro hw
    exact Counted.room ts _ 0 hstart rfl hw.asked
  · intro hroom
    have hal := Counted.along ts _ 0 hstart (Or.inr hroom)
    have hasked := hal.mono fun _ _ hgood => hgood.2
    have hrun : Defined (fun rd => ∃ n, Counted hc rd n) (run recvTurn hc.start ts) :=
      Defined.run (fun rd t hrd ht => hrd.elim fun n hn => hn.turn ht) ts _ ⟨0, hstart⟩ hasked
    have hbound : ∀ rd, (∃ n, Counted hc rd n) → Agree hc rd ∧ rd.rdz.toNat < hc.rxbufSz.toNat := by
      rintro rd ⟨n, hn⟩
      have hleft := hn.agree.left
      exact ⟨hn.agree, by omega⟩
    refine ⟨hal.mono fun _ _ hgood => hgood.1, hasked, ?_, ?_⟩
    · exact fun rd hrd => hbound rd (hrun.of_eq_ok hrd)
    rw [haproxyCliRecv]
    cases hr : run recvTurn hc.start ts with
    | error e =>
      rw [hr] at hrun
      exact fun hub => hrun.ne_ub hub
    | ok rd =>
      obtain ⟨n, hn⟩ := hrun.of_eq_ok hr
      have hfit : rd.rdz.toNat + [(0 : UInt8)].length ≤ rd.rxbuf.length := by
        rw [hn.rxbuf]
        exact (hbound rd ⟨n, hn⟩).2
      rw [ok_bind]
      split
      · rw [poke_of_le hfit]
        intro hub
        cases hub
      · intro hub
        cases hub

/-- A client as it is made, in memory that was cleared. -/
def freshCli : HaproxyCli :=
  haproxyCliNew (List.replicate (2048 * 1024) 0) List.length_replicate

/-- `ok` and a newline, and the end. -/
theorem cli_recv_within_iff_short_answer :
    Within freshCli [.got ⟨ascii "ok\n", by decide⟩, .closed] := by
  refine (cli_recv_within_iff (by decide) _).mpr (room_cons_iff.mpr ⟨by decide, fun _ => ?_⟩)
  exact room_cons_iff.mpr ⟨by decide, fun h => by cases h⟩

/-- As many newlines as `recv` is asked for. -/
def fullChunk : Chunk :=
  ⟨List.replicate haproxyCliRecvLen 10, List.cons_ne_nil _ _, List.length_replicate.le⟩

theorem fullChunks_run (k : Nat) (hk : k ≤ 128) :
    ∃ rd, run recvTurn freshCli.start (List.replicate k (.got fullChunk)) = .ok rd ∧
      rd.rxbuf.length = 2048 * 1024 ∧ rd.off.toNat = k * 2 ^ 14 ∧ rd.ended = false ∧
      rd.left.toNat = (2 ^ 64 + 2048 * 1024 - 1 - k * 2 ^ 14) % 2 ^ 64 := by
  induction k with
  | zero => exact ⟨freshCli.start, rfl, List.length_replicate, rfl, rfl, rfl⟩
  | succ k ih =>
    obtain ⟨rd, hrun, hlen, hoff, hgo, hleft⟩ := ih (by omega)
    have hd : fullChunk.1.length = 2 ^ 14 := List.length_replicate
    have hret : (UInt64.ofNat fullChunk.1.length).toNat = 2 ^ 14 :=
      (toNat_ofNat_length fullChunk).trans hd
    have hfit : rd.off.toNat + fullChunk.1.length ≤ rd.rxbuf.length := by
      rw [hd, hoff, hlen]
      omega
    have h0 : rd.left ≠ 0 := by
      intro h0
      rw [h0] at hleft
      have hzero : 0 = (2 ^ 64 + 2048 * 1024 - 1 - k * 2 ^ 14) % 2 ^ 64 := hleft
      omega
    refine ⟨Rd.count { rd with rxbuf := put rd.rxbuf rd.off.toNat fullChunk.1 }
      (UInt64.ofNat fullChunk.1.length), ?_, (length_put hfit).trans hlen, ?_, hgo, ?_⟩
    · rw [List.replicate_succ', run_append, hrun, ok_bind, run_cons, recvTurn_of_left hgo h0,
        Rd.turn, Rd.got_of_fits hfit, ok_bind, run_nil]
    · show (rd.off + UInt64.ofNat fullChunk.1.length).toNat = _
      rw [UInt64.toNat_add, hret, hoff]
      omega
    · show (rd.left - UInt64.ofNat fullChunk.1.length).toNat = _
      rw [UInt64.toNat_sub, hret, hleft]
      omega

/-- An answer of two megabytes and one byte. -/
def longAnswer : List Turn := List.replicate 128 (.got fullChunk) ++ [.got ⟨[10], by decide⟩]

/-- The long answer fills the buffer to its end, which leaves a `left` of -1 that has wrapped, and
its last byte is stored behind the buffer. -/
theorem two_megabytes_overrun :
    haproxyCliRecv freshCli longAnswer = .error .ub ∧ ¬Within freshCli longAnswer := by
  have hub : haproxyCliRecv freshCli longAnswer = .error .ub := by
    obtain ⟨rd, hrun, hlen, hoff, hgo, hleft⟩ := fullChunks_run 128 (Nat.le_refl 128)
    have h0 : rd.left ≠ 0 := by
      intro h0
      rw [h0] at hleft
      exact absurd hleft (by decide)
    have hgot : rd.got [10] = .error .ub := by
      rw [Rd.got, poke, if_neg]
      · rfl
      · rw [hoff, hlen]
        decide
    rw [haproxyCliRecv, longAnswer, run_append, hrun, ok_bind, run_cons, recvTurn_of_left hgo h0,
      Rd.turn, hgot]
    rfl
  exact ⟨hub, fun hw => hw.defined hub⟩

end Haproxy
end VTest
