import VTest.Lib.Bytes

/-!
# VTest.Gzip.Zlib

What a caller of `inflate` with `Z_FINISH` can rely on, for a compressed format that is a parameter:
`decode` says what a byte string stands for, and how it ends.

* `Zlib.ofDecode`: for every format there is an `inflate` that keeps the contract.
-/

namespace VTest
namespace Gzip

/-- The codes with which `inflate` gives up. -/
inductive ZError where
  | needDict
  | streamError
  | dataError
  | memError
  deriving DecidableEq, Repr

/-- What `inflate` returns. -/
inductive ZCode where
  | ok
  | streamEnd
  | bufError
  | failed (e : ZError)
  deriving DecidableEq, Repr

/-- How a byte string ends: with the end of the compressed stream, before it, or with an error. -/
inductive Ending where
  | complete
  | truncated
  | failed (e : ZError)
  deriving DecidableEq, Repr

def Ending.code : Ending → ZCode
  | .complete => .streamEnd
  | .truncated => .bufError
  | .failed e => .failed e

/-- A call of `inflate`: its result, the bytes it wrote, and the stream behind them. -/
structure Inflated (State : Type) where
  code : ZCode
  out : Bytes
  next : State

/-- The codes that a call may return that wrote `out` and left `rest` to write. With `Z_FINISH`,
`Z_OK` is not among them: an unfinished stream is `Z_BUF_ERROR`, whether or not more output space
would help. -/
def Ending.Allows (e : Ending) (out rest : Bytes) : ZCode → Prop
  | .ok => False
  | .streamEnd => e = .complete ∧ rest = []
  | .failed c => e = .failed c ∧ rest = []
  | .bufError => out ≠ [] ∨ (e = .truncated ∧ rest = [])

/-- An `inflate(Z_FINISH)` for the format. `left` and `ending` say what the rest of the stream
stands for. -/
structure Zlib (decode : Bytes → Bytes × Ending) where
  State : Type
  init : Bytes → State
  inflate : State → Nat → Inflated State
  left : State → Bytes
  ending : State → Ending
  left_init (b : Bytes) : left (init b) = (decode b).1
  ending_init (b : Bytes) : ending (init b) = (decode b).2
  left_inflate (s : State) (n : Nat) : left s = (inflate s n).out ++ left (inflate s n).next
  ending_inflate (s : State) (n : Nat) : ending (inflate s n).next = ending s
  length_out (s : State) (n : Nat) : (inflate s n).out.length ≤ n
  code_inflate (s : State) (n : Nat) : 0 < n →
    (ending s).Allows (inflate s n).out (left (inflate s n).next) (inflate s n).code

/-- The `inflate` that has decoded everything beforehand. -/
def Zlib.ofDecode (decode : Bytes → Bytes × Ending) : Zlib decode where
  State := Bytes × Ending
  init := decode
  inflate s n :=
    if n < s.1.length then ⟨.bufError, s.1.take n, s.1.drop n, s.2⟩ else ⟨s.2.code, s.1, [], s.2⟩
  left s := s.1
  ending s := s.2
  left_init _ := rfl
  ending_init _ := rfl
  left_inflate s n := by
    split
    · exact (List.take_append_drop n s.1).symm
    · exact (List.append_nil s.1).symm
  ending_inflate s n := by split <;> rfl
  length_out s n := by
    split
    · exact List.length_take_le n s.1
    · rename_i h
      exact Nat.le_of_not_lt h
  code_inflate s n hn := by
    split
    · refine .inl fun h => ?_
      rw [List.take_eq_nil_iff] at h
      rcases h with h | h
      · omega
      · simp_all
    · cases hs : s.2 <;> simp [Ending.code, Ending.Allows]

end Gzip
end VTest
