import VTest.Hpack.Table

/-!
# VTest.Hpack.Huffman

The Huffman coder of `vtc_h2_hpack.c` with its two tables: the encoding table of
`vtc_h2_enctbl.h`, and the decoding tables that `huffman_gen.py` makes out of
`tbl/vhp_huffman.h` at build time.

A `struct stbl *` is the prefix its table has in the generator, so `&tbl_0` is 0. The iterator is
the pair of the bytes before and behind its cursor.
-/

namespace VTest
namespace Hpack

inductive HpkResult where
  | more
  | done
  | err
  deriving DecidableEq, Repr

/-- `struct hpk_iter`: `done` is `orig .. buf`, `left` is `buf .. end`. -/
structure HpkIter where
  done : Bytes
  left : Bytes
  deriving DecidableEq, Repr

/-- `ITER_DONE`. -/
def HpkIter.result (it : HpkIter) : HpkResult := if it.left.isEmpty then .done else .more

/-! ## Encoding -/

/-- Value and size of the code of each byte, and of the end of string. -/
def codingTable : List (Nat × Nat) := [
  (0x1ff8, 13), (0x7fffd8, 23), (0xfffffe2, 28), (0xfffffe3, 28), (0xfffffe4, 28),
  (0xfffffe5, 28), (0xfffffe6, 28), (0xfffffe7, 28), (0xfffffe8, 28), (0xffffea, 24),
  (0x3ffffffc, 30), (0xfffffe9, 28), (0xfffffea, 28), (0x3ffffffd, 30), (0xfffffeb, 28),
  (0xfffffec, 28), (0xfffffed, 28), (0xfffffee, 28), (0xfffffef, 28), (0xffffff0, 28),
  (0xffffff1, 28), (0xffffff2, 28), (0x3ffffffe, 30), (0xffffff3, 28), (0xffffff4, 28),
  (0xffffff5, 28), (0xffffff6, 28), (0xffffff7, 28), (0xffffff8, 28), (0xffffff9, 28),
  (0xffffffa, 28), (0xffffffb, 28), (0x14, 6), (0x3f8, 10), (0x3f9, 10),
  (0xffa, 12), (0x1ff9, 13), (0x15, 6), (0xf8, 8), (0x7fa, 11),
  (0x3fa, 10), (0x3fb, 10), (0xf9, 8), (0x7fb, 11), (0xfa, 8),
  (0x16, 6), (0x17, 6), (0x18, 6), (0x0, 5), (0x1, 5),
  (0x2, 5), (0x19, 6), (0x1a, 6), (0x1b, 6), (0x1c, 6),
  (0x1d, 6), (0x1e, 6), (0x1f, 6), (0x5c, 7), (0xfb, 8),
  (0x7ffc, 15), (0x20, 6), (0xffb, 12), (0x3fc, 10), (0x1ffa, 13),
  (0x21, 6), (0x5d, 7), (0x5e, 7), (0x5f, 7), (0x60, 7),
  (0x61, 7), (0x62, 7), (0x63, 7), (0x64, 7), (0x65, 7),
  (0x66, 7), (0x67, 7), (0x68, 7), (0x69, 7), (0x6a, 7),
  (0x6b, 7), (0x6c, 7), (0x6d, 7), (0x6e, 7), (0x6f, 7),
  (0x70, 7), (0x71, 7), (0x72, 7), (0xfc, 8), (0x73, 7),
  (0xfd, 8), (0x1ffb, 13), (0x7fff0, 19), (0x1ffc, 13), (0x3ffc, 14),
  (0x22, 6), (0x7ffd, 15), (0x3, 5), (0x23, 6), (0x4, 5),
  (0x24, 6), (0x5, 5), (0x25, 6), (0x26, 6), (0x27, 6),
  (0x6, 5), (0x74, 7), (0x75, 7), (0x28, 6), (0x29, 6),
  (0x2a, 6), (0x7, 5), (0x2b, 6), (0x76, 7), (0x2c, 6),
  (0x8, 5), (0x9, 5), (0x2d, 6), (0x77, 7), (0x78, 7),
  (0x79, 7), (0x7a, 7), (0x7b, 7), (0x7ffe, 15), (0x7fc, 11),
  (0x3ffd, 14), (0x1ffd, 13), (0xffffffc, 28), (0xfffe6, 20), (0x3fffd2, 22),
  (0xfffe7, 20), (0xfffe8, 20), (0x3fffd3, 22), (0x3fffd4, 22), (0x3fffd5, 22),
  (0x7fffd9, 23), (0x3fffd6, 22), (0x7fffda, 23), (0x7fffdb, 23), (0x7fffdc, 23),
  (0x7fffdd, 23), (0x7fffde, 23), (0xffffeb, 24), (0x7fffdf, 23), (0xffffec, 24),
  (0xffffed, 24), (0x3fffd7, 22), (0x7fffe0, 23), (0xffffee, 24), (0x7fffe1, 23),
  (0x7fffe2, 23), (0x7fffe3, 23), (0x7fffe4, 23), (0x1fffdc, 21), (0x3fffd8, 22),
  (0x7fffe5, 23), (0x3fffd9, 22), (0x7fffe6, 23), (0x7fffe7, 23), (0xffffef, 24),
  (0x3fffda, 22), (0x1fffdd, 21), (0xfffe9, 20), (0x3fffdb, 22), (0x3fffdc, 22),
  (0x7fffe8, 23), (0x7fffe9, 23), (0x1fffde, 21), (0x7fffea, 23), (0x3fffdd, 22),
  (0x3fffde, 22), (0xfffff0, 24), (0x1fffdf, 21), (0x3fffdf, 22), (0x7fffeb, 23),
  (0x7fffec, 23), (0x1fffe0, 21), (0x1fffe1, 21), (0x3fffe0, 22), (0x1fffe2, 21),
  (0x7fffed, 23), (0x3fffe1, 22), (0x7fffee, 23), (0x7fffef, 23), (0xfffea, 20),
  (0x3fffe2, 22), (0x3fffe3, 22), (0x3fffe4, 22), (0x7ffff0, 23), (0x3fffe5, 22),
  (0x3fffe6, 22), (0x7ffff1, 23), (0x3ffffe0, 26), (0x3ffffe1, 26), (0xfffeb, 20),
  (0x7fff1, 19), (0x3fffe7, 22), (0x7ffff2, 23), (0x3fffe8, 22), (0x1ffffec, 25),
  (0x3ffffe2, 26), (0x3ffffe3, 26), (0x3ffffe4, 26), (0x7ffffde, 27), (0x7ffffdf, 27),
  (0x3ffffe5, 26), (0xfffff1, 24), (0x1ffffed, 25), (0x7fff2, 19), (0x1fffe3, 21),
  (0x3ffffe6, 26), (0x7ffffe0, 27), (0x7ffffe1, 27), (0x3ffffe7, 26), (0x7ffffe2, 27),
  (0xfffff2, 24), (0x1fffe4, 21), (0x1fffe5, 21), (0x3ffffe8, 26), (0x3ffffe9, 26),
  (0xffffffd, 28), (0x7ffffe3, 27), (0x7ffffe4, 27), (0x7ffffe5, 27), (0xfffec, 20),
  (0xfffff3, 24), (0xfffed, 20), (0x1fffe6, 21), (0x3fffe9, 22), (0x1fffe7, 21),
  (0x1fffe8, 21), (0x7ffff3, 23), (0x3fffea, 22), (0x3fffeb, 22), (0x1ffffee, 25),
  (0x1ffffef, 25), (0xfffff4, 24), (0xfffff5, 24), (0x3ffffea, 26), (0x7ffff4, 23),
  (0x3ffffeb, 26), (0x7ffffe6, 27), (0x3ffffec, 26), (0x3ffffed, 26), (0x7ffffe7, 27),
  (0x7ffffe8, 27), (0x7ffffe9, 27), (0x7ffffea, 27), (0x7ffffeb, 27), (0xffffffe, 28),
  (0x7ffffec, 27), (0x7ffffed, 27), (0x7ffffee, 27), (0x7ffffef, 27), (0x7fffff0, 27),
  (0x3ffffee, 26), (0x3fffffff, 30)]

/-- The inner loop of `huff_encode`: it moves whole bytes out of `pack`. `true` says that the
buffer was full. Each turn takes 8 off `pl`, so `pl` itself is enough fuel. -/
def emitBytes : Nat → UInt64 → Nat → HpkIter → Bool × UInt64 × Nat × HpkIter
  | 0, pack, pl, it => (false, pack, pl, it)
  | n + 1, pack, pl, it =>
    if 8 ≤ pl then
      match it.left with
      | [] => (true, pack, pl, it)
      | _ :: r => emitBytes n (pack <<< 8) (pl - 8) ⟨it.done ++ [(pack >>> 56).toUInt8], r⟩
    else (false, pack, pl, it)

def huffEncLoop : Bytes → UInt64 → Nat → HpkIter → Res (HpkResult × HpkIter)
  | [], pack, pl, it =>
    if pl ≠ 0 then do
      check (pl < 8)
      match it.left with
      | [] => return (.done, it)
      | _ :: r =>
        -- the padding: all ones
        let pack := pack ||| (0xff <<< UInt64.ofNat (64 - (pl + 8)))
        return (.more, ⟨it.done ++ [(pack >>> 56).toUInt8], r⟩)
    else return (.more, it)
  | c :: str, pack, pl, it =>
    let v := (codingTable.getD c.toNat (0, 0)).1
    let s := (codingTable.getD c.toNat (0, 0)).2
    let pl := pl + s
    let pack := pack ||| (UInt64.ofNat v <<< UInt64.ofNat (64 - pl))
    match emitBytes pl pack pl it with
    | (true, _, _, it) => return (.done, it)
    | (false, pack, pl, it) => huffEncLoop str pack pl it

def huffEncode (it : HpkIter) (str : Bytes) : Res (HpkResult × HpkIter) := do
  check (!it.left.isEmpty)
  huffEncLoop str 0 0 it

def huffSimulate (str : Bytes) (huff : Bool) : Nat :=
  if !huff || str.isEmpty then str.length
  else ((str.map fun c => (codingTable.getD c.toNat (0, 0)).2).sum + 7) / 8

/-! ## The generator of the decoding tables -/

/-- `HPH(chr, code, length)`, in the order of `tbl/vhp_huffman.h`. -/
def vhpHuffman : List (Nat × Nat × Nat) := [
  (0x30, 0x0, 5), (0x31, 0x1, 5), (0x32, 0x2, 5), (0x61, 0x3, 5),
  (0x63, 0x4, 5), (0x65, 0x5, 5), (0x69, 0x6, 5), (0x6f, 0x7, 5),
  (0x73, 0x8, 5), (0x74, 0x9, 5), (0x20, 0x14, 6), (0x25, 0x15, 6),
  (0x2d, 0x16, 6), (0x2e, 0x17, 6), (0x2f, 0x18, 6), (0x33, 0x19, 6),
  (0x34, 0x1a, 6), (0x35, 0x1b, 6), (0x36, 0x1c, 6), (0x37, 0x1d, 6),
  (0x38, 0x1e, 6), (0x39, 0x1f, 6), (0x3d, 0x20, 6), (0x41, 0x21, 6),
  (0x5f, 0x22, 6), (0x62, 0x23, 6), (0x64, 0x24, 6), (0x66, 0x25, 6),
  (0x67, 0x26, 6), (0x68, 0x27, 6), (0x6c, 0x28, 6), (0x6d, 0x29, 6),
  (0x6e, 0x2a, 6), (0x70, 0x2b, 6), (0x72, 0x2c, 6), (0x75, 0x2d, 6),
  (0x3a, 0x5c, 7), (0x42, 0x5d, 7), (0x43, 0x5e, 7), (0x44, 0x5f, 7),
  (0x45, 0x60, 7), (0x46, 0x61, 7), (0x47, 0x62, 7), (0x48, 0x63, 7),
  (0x49, 0x64, 7), (0x4a, 0x65, 7), (0x4b, 0x66, 7), (0x4c, 0x67, 7),
  (0x4d, 0x68, 7), (0x4e, 0x69, 7), (0x4f, 0x6a, 7), (0x50, 0x6b, 7),
  (0x51, 0x6c, 7), (0x52, 0x6d, 7), (0x53, 0x6e, 7), (0x54, 0x6f, 7),
  (0x55, 0x70, 7), (0x56, 0x71, 7), (0x57, 0x72, 7), (0x59, 0x73, 7),
  (0x6a, 0x74, 7), (0x6b, 0x75, 7), (0x71, 0x76, 7), (0x76, 0x77, 7),
  (0x77, 0x78, 7), (0x78, 0x79, 7), (0x79, 0x7a, 7), (0x7a, 0x7b, 7),
  (0x26, 0xf8, 8), (0x2a, 0xf9, 8), (0x2c, 0xfa, 8), (0x3b, 0xfb, 8),
  (0x58, 0xfc, 8), (0x5a, 0xfd, 8), (0x21, 0x3f8, 10), (0x22, 0x3f9, 10),
  (0x28, 0x3fa, 10), (0x29, 0x3fb, 10), (0x3f, 0x3fc, 10), (0x27, 0x7fa, 11),
  (0x2b, 0x7fb, 11), (0x7c, 0x7fc, 11), (0x23, 0xffa, 12), (0x3e, 0xffb, 12),
  (0x00, 0x1ff8, 13), (0x24, 0x1ff9, 13), (0x40, 0x1ffa, 13), (0x5b, 0x1ffb, 13),
  (0x5d, 0x1ffc, 13), (0x7e, 0x1ffd, 13), (0x5e, 0x3ffc, 14), (0x7d, 0x3ffd, 14),
  (0x3c, 0x7ffc, 15), (0x60, 0x7ffd, 15), (0x7b, 0x7ffe, 15), (0x5c, 0x7fff0, 19),
  (0xc3, 0x7fff1, 19), (0xd0, 0x7fff2, 19), (0x80, 0xfffe6, 20), (0x82, 0xfffe7, 20),
  (0x83, 0xfffe8, 20), (0xa2, 0xfffe9, 20), (0xb8, 0xfffea, 20), (0xc2, 0xfffeb, 20),
  (0xe0, 0xfffec, 20), (0xe2, 0xfffed, 20), (0x99, 0x1fffdc, 21), (0xa1, 0x1fffdd, 21),
  (0xa7, 0x1fffde, 21), (0xac, 0x1fffdf, 21), (0xb0, 0x1fffe0, 21), (0xb1, 0x1fffe1, 21),
  (0xb3, 0x1fffe2, 21), (0xd1, 0x1fffe3, 21), (0xd8, 0x1fffe4, 21), (0xd9, 0x1fffe5, 21),
  (0xe3, 0x1fffe6, 21), (0xe5, 0x1fffe7, 21), (0xe6, 0x1fffe8, 21), (0x81, 0x3fffd2, 22),
  (0x84, 0x3fffd3, 22), (0x85, 0x3fffd4, 22), (0x86, 0x3fffd5, 22), (0x88, 0x3fffd6, 22),
  (0x92, 0x3fffd7, 22), (0x9a, 0x3fffd8, 22), (0x9c, 0x3fffd9, 22), (0xa0, 0x3fffda, 22),
  (0xa3, 0x3fffdb, 22), (0xa4, 0x3fffdc, 22), (0xa9, 0x3fffdd, 22), (0xaa, 0x3fffde, 22),
  (0xad, 0x3fffdf, 22), (0xb2, 0x3fffe0, 22), (0xb5, 0x3fffe1, 22), (0xb9, 0x3fffe2, 22),
  (0xba, 0x3fffe3, 22), (0xbb, 0x3fffe4, 22), (0xbd, 0x3fffe5, 22), (0xbe, 0x3fffe6, 22),
  (0xc4, 0x3fffe7, 22), (0xc6, 0x3fffe8, 22), (0xe4, 0x3fffe9, 22), (0xe8, 0x3fffea, 22),
  (0xe9, 0x3fffeb, 22), (0x01, 0x7fffd8, 23), (0x87, 0x7fffd9, 23), (0x89, 0x7fffda, 23),
  (0x8a, 0x7fffdb, 23), (0x8b, 0x7fffdc, 23), (0x8c, 0x7fffdd, 23), (0x8d, 0x7fffde, 23),
  (0x8f, 0x7fffdf, 23), (0x93, 0x7fffe0, 23), (0x95, 0x7fffe1, 23), (0x96, 0x7fffe2, 23),
  (0x97, 0x7fffe3, 23), (0x98, 0x7fffe4, 23), (0x9b, 0x7fffe5, 23), (0x9d, 0x7fffe6, 23),
  (0x9e, 0x7fffe7, 23), (0xa5, 0x7fffe8, 23), (0xa6, 0x7fffe9, 23), (0xa8, 0x7fffea, 23),
  (0xae, 0x7fffeb, 23), (0xaf, 0x7fffec, 23), (0xb4, 0x7fffed, 23), (0xb6, 0x7fffee, 23),
  (0xb7, 0x7fffef, 23), (0xbc, 0x7ffff0, 23), (0xbf, 0x7ffff1, 23), (0xc5, 0x7ffff2, 23),
  (0xe7, 0x7ffff3, 23), (0xef, 0x7ffff4, 23), (0x09, 0xffffea, 24), (0x8e, 0xffffeb, 24),
  (0x90, 0xffffec, 24), (0x91, 0xffffed, 24), (0x94, 0xffffee, 24), (0x9f, 0xffffef, 24),
  (0xab, 0xfffff0, 24), (0xce, 0xfffff1, 24), (0xd7, 0xfffff2, 24), (0xe1, 0xfffff3, 24),
  (0xec, 0xfffff4, 24), (0xed, 0xfffff5, 24), (0xc7, 0x1ffffec, 25), (0xcf, 0x1ffffed, 25),
  (0xea, 0x1ffffee, 25), (0xeb, 0x1ffffef, 25), (0xc0, 0x3ffffe0, 26), (0xc1, 0x3ffffe1, 26),
  (0xc8, 0x3ffffe2, 26), (0xc9, 0x3ffffe3, 26), (0xca, 0x3ffffe4, 26), (0xcd, 0x3ffffe5, 26),
  (0xd2, 0x3ffffe6, 26), (0xd5, 0x3ffffe7, 26), (0xda, 0x3ffffe8, 26), (0xdb, 0x3ffffe9, 26),
  (0xee, 0x3ffffea, 26), (0xf0, 0x3ffffeb, 26), (0xf2, 0x3ffffec, 26), (0xf3, 0x3ffffed, 26),
  (0xff, 0x3ffffee, 26), (0xcb, 0x7ffffde, 27), (0xcc, 0x7ffffdf, 27), (0xd3, 0x7ffffe0, 27),
  (0xd4, 0x7ffffe1, 27), (0xd6, 0x7ffffe2, 27), (0xdd, 0x7ffffe3, 27), (0xde, 0x7ffffe4, 27),
  (0xdf, 0x7ffffe5, 27), (0xf1, 0x7ffffe6, 27), (0xf4, 0x7ffffe7, 27), (0xf5, 0x7ffffe8, 27),
  (0xf6, 0x7ffffe9, 27), (0xf7, 0x7ffffea, 27), (0xf8, 0x7ffffeb, 27), (0xfa, 0x7ffffec, 27),
  (0xfb, 0x7ffffed, 27), (0xfc, 0x7ffffee, 27), (0xfd, 0x7ffffef, 27), (0xfe, 0x7fffff0, 27),
  (0x02, 0xfffffe2, 28), (0x03, 0xfffffe3, 28), (0x04, 0xfffffe4, 28), (0x05, 0xfffffe5, 28),
  (0x06, 0xfffffe6, 28), (0x07, 0xfffffe7, 28), (0x08, 0xfffffe8, 28), (0x0b, 0xfffffe9, 28),
  (0x0c, 0xfffffea, 28), (0x0e, 0xfffffeb, 28), (0x0f, 0xfffffec, 28), (0x10, 0xfffffed, 28),
  (0x11, 0xfffffee, 28), (0x12, 0xfffffef, 28), (0x13, 0xffffff0, 28), (0x14, 0xffffff1, 28),
  (0x15, 0xffffff2, 28), (0x17, 0xffffff3, 28), (0x18, 0xffffff4, 28), (0x19, 0xffffff5, 28),
  (0x1a, 0xffffff6, 28), (0x1b, 0xffffff7, 28), (0x1c, 0xffffff8, 28), (0x1d, 0xffffff9, 28),
  (0x1e, 0xffffffa, 28), (0x1f, 0xffffffb, 28), (0x7f, 0xffffffc, 28), (0xdc, 0xffffffd, 28),
  (0xf9, 0xffffffe, 28), (0x0a, 0x3ffffffc, 30), (0x0d, 0x3ffffffd, 30), (0x16, 0x3ffffffe, 30)]

/-- An object of the class `sym` of the generator. -/
structure Sym where
  vall : Nat
  val : Nat
  pfx : Nat
  chr : Nat
  esc : Option Nat

/-- The constructor of that class: a code is cut into whole bytes and a last part of 1 to 8
bits. -/
def sym (bigval bigvall chr : Nat) (esc : Option Nat) : Sym :=
  let vall := if bigvall % 8 ≠ 0 then bigvall % 8 else 8
  { vall := vall, val := bigval % 2 ^ vall, pfx := bigval / 2 ^ vall, chr := chr, esc := esc }

/-- `tbls[pfx][s.val] = s`. -/
def setSym (tbls : List (Nat × Sym)) (pfx : Nat) (s : Sym) : List (Nat × Sym) :=
  tbls.filter (fun e => !(e.1 == pfx && e.2.val == s.val)) ++ [(pfx, s)]

/-- One line of the input: the symbol, and the escape entry in the table before its own. -/
def genLine (tbls : List (Nat × Sym)) (l : Nat × Nat × Nat) : List (Nat × Sym) :=
  let s := sym l.2.1 l.2.2 l.1 none
  let tbls := setSym tbls s.pfx s
  if s.pfx ≠ 0 then setSym tbls (s.pfx / 256) (sym (s.pfx % 256) 8 0 (some s.pfx)) else tbls

def genTbls : List (Nat × Sym) :=
  setSym (vhpHuffman.foldl genLine []) 0xffffff (sym 63 6 0 none)

/-- `struct ssym`. -/
structure Ssym where
  csm : Nat
  chr : UInt8
  nxt : Option Nat

/-- `struct stbl`. -/
structure Stbl where
  msk : Nat
  syms : List Ssym

/-- The table that is printed for a prefix: the symbols in the order of their codes, each as often
as there are ways to fill its code up to the longest one. -/
def stbl (pfx : Nat) : Stbl :=
  let ss := (genTbls.filter (·.1 == pfx)).map (·.2)
  let msl := (ss.map (·.vall)).foldl max 0
  let ss := ss.map fun s => { s with val := s.val * 2 ^ (msl - s.vall) }
  { msk := msl
    syms := (ss.insertionSort fun a b => a.val ≤ b.val).flatMap fun s =>
      List.replicate (2 ^ (msl - s.vall)) ⟨s.vall, UInt8.ofNat (s.chr % 256), s.esc⟩ }

/-! ## Decoding -/

/-- The loop that fits as many bytes as it can into `pack`. -/
def fillPack : Nat → UInt64 → Nat → HpkIter → Res (UInt64 × Nat × Nat × HpkIter)
  | 0, pack, pl, it => .ok (pack, pl, 0, it)
  | ilen + 1, pack, pl, it =>
    if pl ≤ 56 then
      match it.left with
      | [] => .error .ub
      | b :: r =>
        fillPack ilen (pack ||| (b.toUInt64 <<< UInt64.ofNat (56 - pl))) (pl + 8)
          ⟨it.done ++ [b], r⟩
    else .ok (pack, pl, ilen + 1, it)

/-- `MASK`. -/
def mask (pack : UInt64) (n : Nat) : Nat := (pack >>> UInt64.ofNat (64 - n)).toNat

/-- The loop of `huff_decode`. Each turn that does not return takes at least one bit, so the
number of bits is enough fuel. A result of 0 characters is the empty string. -/
def huffDecLoop : Nat → Nat → UInt64 → Nat → Nat → Bytes → HpkIter → Res (Bytes × HpkIter)
  | 0, _, _, _, _, _, _ => .error .fuel
  | n + 1, tbl, pack, pl, ilen, str, it =>
    if ilen = 0 ∧ pl = 0 then .ok (str, it)
    else if pl < (stbl tbl).msk ∧ ilen = 0 ∧ (pl = 0 ∨ mask pack pl = 2 ^ pl - 1) then do
      check (tbl = 0)
      return (str, it)
    else do
      let (pack, pl, ilen, it) ←
        if pl < (stbl tbl).msk then fillPack ilen pack pl it else .ok (pack, pl, ilen, it)
      check ((stbl tbl).msk ≠ 0)
      match (stbl tbl).syms[mask pack (stbl tbl).msk]? with
      | none => .error .ub
      | some sym =>
        check (sym.csm ≤ (stbl tbl).msk)
        if sym.csm = 0 ∨ pl < sym.csm then return ([], it)
        check (sym.csm ≤ 8)
        let pack := pack <<< UInt64.ofNat sym.csm
        let pl := pl - sym.csm
        match sym.nxt with
        | some nxt => huffDecLoop n nxt pack pl ilen str it
        | none => huffDecLoop n 0 pack pl ilen (str ++ [sym.chr]) it

def huffDecode (it : HpkIter) (ilen : Nat) : Res (Bytes × HpkIter) :=
  huffDecLoop (8 * ilen + 1) 0 0 0 ilen [] it

end Hpack
end VTest
