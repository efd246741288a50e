/-
  The tables of the HPACK Huffman coder (`cbits/hpack_huffman.c`), as they stand
  in the source.
-/
import Mathlib.Tactic.Common
import Mathlib.Algebra.Ring.Int.Defs
import Mathlib.Algebra.Ring.Nat

namespace Wireform.Http2.Hpack

/-- A code word: its bits, and how many. -/
structure HuffSym where
  code : Nat
  bits : Nat
  deriving DecidableEq, Repr

/-- The code words of the bytes, and of the end of the string. -/
def huffEncodeTable : List HuffSym := [
  ⟨0x1ff8, 13⟩, ⟨0x7fffd8, 23⟩, ⟨0xfffffe2, 28⟩, ⟨0xfffffe3, 28⟩, ⟨0xfffffe4, 28⟩,
  ⟨0xfffffe5, 28⟩, ⟨0xfffffe6, 28⟩, ⟨0xfffffe7, 28⟩, ⟨0xfffffe8, 28⟩, ⟨0xffffea, 24⟩,
  ⟨0x3ffffffc, 30⟩, ⟨0xfffffe9, 28⟩, ⟨0xfffffea, 28⟩, ⟨0x3ffffffd, 30⟩, ⟨0xfffffeb, 28⟩,
  ⟨0xfffffec, 28⟩, ⟨0xfffffed, 28⟩, ⟨0xfffffee, 28⟩, ⟨0xfffffef, 28⟩, ⟨0xffffff0, 28⟩,
  ⟨0xffffff1, 28⟩, ⟨0xffffff2, 28⟩, ⟨0x3ffffffe, 30⟩, ⟨0xffffff3, 28⟩, ⟨0xffffff4, 28⟩,
  ⟨0xffffff5, 28⟩, ⟨0xffffff6, 28⟩, ⟨0xffffff7, 28⟩, ⟨0xffffff8, 28⟩, ⟨0xffffff9, 28⟩,
  ⟨0xffffffa, 28⟩, ⟨0xffffffb, 28⟩, ⟨0x14, 6⟩, ⟨0x3f8, 10⟩, ⟨0x3f9, 10⟩,
  ⟨0xffa, 12⟩, ⟨0x1ff9, 13⟩, ⟨0x15, 6⟩, ⟨0xf8, 8⟩, ⟨0x7fa, 11⟩,
  ⟨0x3fa, 10⟩, ⟨0x3fb, 10⟩, ⟨0xf9, 8⟩, ⟨0x7fb, 11⟩, ⟨0xfa, 8⟩,
  ⟨0x16, 6⟩, ⟨0x17, 6⟩, ⟨0x18, 6⟩, ⟨0x0, 5⟩, ⟨0x1, 5⟩,
  ⟨0x2, 5⟩, ⟨0x19, 6⟩, ⟨0x1a, 6⟩, ⟨0x1b, 6⟩, ⟨0x1c, 6⟩,
  ⟨0x1d, 6⟩, ⟨0x1e, 6⟩, ⟨0x1f, 6⟩, ⟨0x5c, 7⟩, ⟨0xfb, 8⟩,
  ⟨0x7ffc, 15⟩, ⟨0x20, 6⟩, ⟨0xffb, 12⟩, ⟨0x3fc, 10⟩, ⟨0x1ffa, 13⟩,
  ⟨0x21, 6⟩, ⟨0x5d, 7⟩, ⟨0x5e, 7⟩, ⟨0x5f, 7⟩, ⟨0x60, 7⟩,
  ⟨0x61, 7⟩, ⟨0x62, 7⟩, ⟨0x63, 7⟩, ⟨0x64, 7⟩, ⟨0x65, 7⟩,
  ⟨0x66, 7⟩, ⟨0x67, 7⟩, ⟨0x68, 7⟩, ⟨0x69, 7⟩, ⟨0x6a, 7⟩,
  ⟨0x6b, 7⟩, ⟨0x6c, 7⟩, ⟨0x6d, 7⟩, ⟨0x6e, 7⟩, ⟨0x6f, 7⟩,
  ⟨0x70, 7⟩, ⟨0x71, 7⟩, ⟨0x72, 7⟩, ⟨0xfc, 8⟩, ⟨0x73, 7⟩,
  ⟨0xfd, 8⟩, ⟨0x1ffb, 13⟩, ⟨0x7fff0, 19⟩, ⟨0x1ffc, 13⟩, ⟨0x3ffc, 14⟩,
  ⟨0x22, 6⟩, ⟨0x7ffd, 15⟩, ⟨0x3, 5⟩, ⟨0x23, 6⟩, ⟨0x4, 5⟩,
  ⟨0x24, 6⟩, ⟨0x5, 5⟩, ⟨0x25, 6⟩, ⟨0x26, 6⟩, ⟨0x27, 6⟩,
  ⟨0x6, 5⟩, ⟨0x74, 7⟩, ⟨0x75, 7⟩, ⟨0x28, 6⟩, ⟨0x29, 6⟩,
  ⟨0x2a, 6⟩, ⟨0x7, 5⟩, ⟨0x2b, 6⟩, ⟨0x76, 7⟩, ⟨0x2c, 6⟩,
  ⟨0x8, 5⟩, ⟨0x9, 5⟩, ⟨0x2d, 6⟩, ⟨0x77, 7⟩, ⟨0x78, 7⟩,
  ⟨0x79, 7⟩, ⟨0x7a, 7⟩, ⟨0x7b, 7⟩, ⟨0x7ffe, 15⟩, ⟨0x7fc, 11⟩,
  ⟨0x3ffd, 14⟩, ⟨0x1ffd, 13⟩, ⟨0xffffffc, 28⟩, ⟨0xfffe6, 20⟩, ⟨0x3fffd2, 22⟩,
  ⟨0xfffe7, 20⟩, ⟨0xfffe8, 20⟩, ⟨0x3fffd3, 22⟩, ⟨0x3fffd4, 22⟩, ⟨0x3fffd5, 22⟩,
  ⟨0x7fffd9, 23⟩, ⟨0x3fffd6, 22⟩, ⟨0x7fffda, 23⟩, ⟨0x7fffdb, 23⟩, ⟨0x7fffdc, 23⟩,
  ⟨0x7fffdd, 23⟩, ⟨0x7fffde, 23⟩, ⟨0xffffeb, 24⟩, ⟨0x7fffdf, 23⟩, ⟨0xffffec, 24⟩,
  ⟨0xffffed, 24⟩, ⟨0x3fffd7, 22⟩, ⟨0x7fffe0, 23⟩, ⟨0xffffee, 24⟩, ⟨0x7fffe1, 23⟩,
  ⟨0x7fffe2, 23⟩, ⟨0x7fffe3, 23⟩, ⟨0x7fffe4, 23⟩, ⟨0x1fffdc, 21⟩, ⟨0x3fffd8, 22⟩,
  ⟨0x7fffe5, 23⟩, ⟨0x3fffd9, 22⟩, ⟨0x7fffe6, 23⟩, ⟨0x7fffe7, 23⟩, ⟨0xffffef, 24⟩,
  ⟨0x3fffda, 22⟩, ⟨0x1fffdd, 21⟩, ⟨0xfffe9, 20⟩, ⟨0x3fffdb, 22⟩, ⟨0x3fffdc, 22⟩,
  ⟨0x7fffe8, 23⟩, ⟨0x7fffe9, 23⟩, ⟨0x1fffde, 21⟩, ⟨0x7fffea, 23⟩, ⟨0x3fffdd, 22⟩,
  ⟨0x3fffde, 22⟩, ⟨0xfffff0, 24⟩, ⟨0x1fffdf, 21⟩, ⟨0x3fffdf, 22⟩, ⟨0x7fffeb, 23⟩,
  ⟨0x7fffec, 23⟩, ⟨0x1fffe0, 21⟩, ⟨0x1fffe1, 21⟩, ⟨0x3fffe0, 22⟩, ⟨0x1fffe2, 21⟩,
  ⟨0x7fffed, 23⟩, ⟨0x3fffe1, 22⟩, ⟨0x7fffee, 23⟩, ⟨0x7fffef, 23⟩, ⟨0xfffea, 20⟩,
  ⟨0x3fffe2, 22⟩, ⟨0x3fffe3, 22⟩, ⟨0x3fffe4, 22⟩, ⟨0x7ffff0, 23⟩, ⟨0x3fffe5, 22⟩,
  ⟨0x3fffe6, 22⟩, ⟨0x7ffff1, 23⟩, ⟨0x3ffffe0, 26⟩, ⟨0x3ffffe1, 26⟩, ⟨0xfffeb, 20⟩,
  ⟨0x7fff1, 19⟩, ⟨0x3fffe7, 22⟩, ⟨0x7ffff2, 23⟩, ⟨0x3fffe8, 22⟩, ⟨0x1ffffec, 25⟩,
  ⟨0x3ffffe2, 26⟩, ⟨0x3ffffe3, 26⟩, ⟨0x3ffffe4, 26⟩, ⟨0x7ffffde, 27⟩, ⟨0x7ffffdf, 27⟩,
  ⟨0x3ffffe5, 26⟩, ⟨0xfffff1, 24⟩, ⟨0x1ffffed, 25⟩, ⟨0x7fff2, 19⟩, ⟨0x1fffe3, 21⟩,
  ⟨0x3ffffe6, 26⟩, ⟨0x7ffffe0, 27⟩, ⟨0x7ffffe1, 27⟩, ⟨0x3ffffe7, 26⟩, ⟨0x7ffffe2, 27⟩,
  ⟨0xfffff2, 24⟩, ⟨0x1fffe4, 21⟩, ⟨0x1fffe5, 21⟩, ⟨0x3ffffe8, 26⟩, ⟨0x3ffffe9, 26⟩,
  ⟨0xffffffd, 28⟩, ⟨0x7ffffe3, 27⟩, ⟨0x7ffffe4, 27⟩, ⟨0x7ffffe5, 27⟩, ⟨0xfffec, 20⟩,
  ⟨0xfffff3, 24⟩, ⟨0xfffed, 20⟩, ⟨0x1fffe6, 21⟩, ⟨0x3fffe9, 22⟩, ⟨0x1fffe7, 21⟩,
  ⟨0x1fffe8, 21⟩, ⟨0x7ffff3, 23⟩, ⟨0x3fffea, 22⟩, ⟨0x3fffeb, 22⟩, ⟨0x1ffffee, 25⟩,
  ⟨0x1ffffef, 25⟩, ⟨0xfffff4, 24⟩, ⟨0xfffff5, 24⟩, ⟨0x3ffffea, 26⟩, ⟨0x7ffff4, 23⟩,
  ⟨0x3ffffeb, 26⟩, ⟨0x7ffffe6, 27⟩, ⟨0x3ffffec, 26⟩, ⟨0x3ffffed, 26⟩, ⟨0x7ffffe7, 27⟩,
  ⟨0x7ffffe8, 27⟩, ⟨0x7ffffe9, 27⟩, ⟨0x7ffffea, 27⟩, ⟨0x7ffffeb, 27⟩, ⟨0xffffffe, 28⟩,
  ⟨0x7ffffec, 27⟩, ⟨0x7ffffed, 27⟩, ⟨0x7ffffee, 27⟩, ⟨0x7ffffef, 27⟩, ⟨0x7fffff0, 27⟩,
  ⟨0x3ffffee, 26⟩, ⟨0x3fffffff, 30⟩]

/-- A transition: the next state, flags (1: the string may end, 2: a symbol is
    complete), and the symbol. -/
structure DecodeEntry where
  fstate : Nat
  flags : Nat
  sym : Nat
  deriving DecidableEq, Repr

/-- A symbol that ends with the first of the four bits: its entries, for the three bits after it. -/
def ends₁ (syms : List Nat) : List DecodeEntry := syms.flatMap fun sym =>
  [⟨0x03, 2, sym⟩, ⟨0x06, 2, sym⟩, ⟨0x0a, 2, sym⟩, ⟨0x0f, 2, sym⟩, ⟨0x18, 2, sym⟩, ⟨0x1f, 2, sym⟩, ⟨0x29, 2, sym⟩,
    ⟨0x38, 3, sym⟩]

def ends₂ (syms : List Nat) : List DecodeEntry := syms.flatMap fun sym =>
  [⟨0x02, 2, sym⟩, ⟨0x09, 2, sym⟩, ⟨0x17, 2, sym⟩, ⟨0x28, 3, sym⟩]

def ends₃ (syms : List Nat) : List DecodeEntry := syms.flatMap fun sym => [⟨0x01, 2, sym⟩, ⟨0x16, 3, sym⟩]

def ends₄ (syms : List Nat) : List DecodeEntry := syms.map fun sym => ⟨0x00, 3, sym⟩

/-- Entries without a symbol. -/
def moves (fstates : List Nat) : List DecodeEntry := fstates.map fun fstate => ⟨fstate, 0, 0⟩

/-- Entries without a symbol that may be the last. -/
def accepts (fstates : List Nat) : List DecodeEntry := fstates.map fun fstate => ⟨fstate, 1, 0⟩

/-- The transitions of every state, by the next four bits; the entries that complete one symbol stand together. -/
def huffDecodeTable : List (List DecodeEntry) := [
  moves [0x04, 0x05, 0x07, 0x08, 0x0b, 0x0c, 0x10, 0x13, 0x19, 0x1c, 0x20, 0x23, 0x2a, 0x31, 0x39] ++ accepts
    [0x40],
  ends₄ [48, 49, 50, 97, 99, 101, 105, 111, 115, 116] ++ moves [0x0d, 0x0e, 0x11, 0x12, 0x14, 0x15],
  ends₃ [48, 49, 50, 97, 99, 101, 105, 111], ends₂ [48, 49, 50, 97], ends₁ [48, 49], ends₁ [50, 97],
  ends₂ [99, 101, 105, 111], ends₁ [99, 101], ends₁ [105, 111],
  ends₃ [115, 116] ++ ends₄ [32, 37, 45, 46, 47, 51, 52, 53, 54, 55, 56, 57],
  ends₂ [115, 116] ++ ends₃ [32, 37, 45, 46], ends₁ [115, 116], ends₂ [32, 37, 45, 46], ends₁ [32, 37],
  ends₁ [45, 46], ends₃ [47, 51, 52, 53, 54, 55, 56, 57], ends₂ [47, 51, 52, 53], ends₁ [47, 51], ends₁ [52, 53],
  ends₂ [54, 55, 56, 57], ends₁ [54, 55], ends₁ [56, 57],
  moves [0x1a, 0x1b, 0x1d, 0x1e, 0x21, 0x22, 0x24, 0x25, 0x2b, 0x2e, 0x32, 0x35, 0x3a, 0x3d, 0x41] ++ accepts
    [0x44],
  ends₄ [61, 65, 95, 98, 100, 102, 103, 104, 108, 109, 110, 112, 114, 117] ++ moves [0x26, 0x27],
  ends₃ [61, 65, 95, 98, 100, 102, 103, 104], ends₂ [61, 65, 95, 98], ends₁ [61, 65], ends₁ [95, 98],
  ends₂ [100, 102, 103, 104], ends₁ [100, 102], ends₁ [103, 104],
  ends₃ [108, 109, 110, 112, 114, 117] ++ ends₄ [58, 66, 67, 68], ends₂ [108, 109, 110, 112], ends₁ [108, 109],
  ends₁ [110, 112], ends₂ [114, 117] ++ ends₃ [58, 66, 67, 68], ends₁ [114, 117], ends₂ [58, 66, 67, 68],
  ends₁ [58, 66], ends₁ [67, 68],
  moves [0x2c, 0x2d, 0x2f, 0x30, 0x33, 0x34, 0x36, 0x37, 0x3b, 0x3c, 0x3e, 0x3f, 0x42, 0x43, 0x45] ++ accepts
    [0x48],
  ends₄ [69, 70, 71, 72, 73, 74, 75, 76, 77, 78, 79, 80, 81, 82, 83, 84], ends₃ [69, 70, 71, 72, 73, 74, 75, 76],
  ends₂ [69, 70, 71, 72], ends₁ [69, 70], ends₁ [71, 72], ends₂ [73, 74, 75, 76], ends₁ [73, 74], ends₁ [75, 76],
  ends₃ [77, 78, 79, 80, 81, 82, 83, 84], ends₂ [77, 78, 79, 80], ends₁ [77, 78], ends₁ [79, 80],
  ends₂ [81, 82, 83, 84], ends₁ [81, 82], ends₁ [83, 84],
  ends₄ [85, 86, 87, 89, 106, 107, 113, 118, 119, 120, 121, 122] ++ moves [0x46, 0x47, 0x49] ++ accepts [0x4a],
  ends₃ [85, 86, 87, 89, 106, 107, 113, 118], ends₂ [85, 86, 87, 89], ends₁ [85, 86], ends₁ [87, 89],
  ends₂ [106, 107, 113, 118], ends₁ [106, 107], ends₁ [113, 118],
  ends₃ [119, 120, 121, 122] ++ ends₄ [38, 42, 44, 59, 88, 90] ++ moves [0x4b, 0x4e], ends₂ [119, 120, 121, 122],
  ends₁ [119, 120], ends₁ [121, 122], ends₃ [38, 42, 44, 59, 88, 90] ++ moves [0x4c, 0x4d, 0x4f, 0x51],
  ends₂ [38, 42, 44, 59], ends₁ [38, 42], ends₁ [44, 59],
  ends₂ [88, 90] ++ ends₄ [33, 34, 40, 41, 63] ++ moves [0x50, 0x52, 0x54], ends₁ [88, 90],
  ends₃ [33, 34, 40, 41, 63] ++ ends₄ [39, 43, 124] ++ moves [0x53, 0x55, 0x58], ends₂ [33, 34, 40, 41],
  ends₁ [33, 34], ends₁ [40, 41],
  ends₂ [63] ++ ends₃ [39, 43, 124] ++ ends₄ [35, 62] ++ moves [0x56, 0x57, 0x59, 0x5a],
  ends₁ [63] ++ ends₂ [39, 43], ends₁ [39, 43],
  ends₂ [124] ++ ends₃ [35, 62] ++ ends₄ [0, 36, 64, 91, 93, 126] ++ moves [0x5b, 0x5c],
  ends₁ [124] ++ ends₂ [35, 62], ends₁ [35, 62],
  ends₃ [0, 36, 64, 91, 93, 126] ++ ends₄ [94, 125] ++ moves [0x5d, 0x5e], ends₂ [0, 36, 64, 91], ends₁ [0, 36],
  ends₁ [64, 91], ends₂ [93, 126] ++ ends₃ [94, 125] ++ ends₄ [60, 96, 123] ++ moves [0x5f], ends₁ [93, 126],
  ends₂ [94, 125] ++ ends₃ [60, 96, 123] ++ moves [0x60, 0x6e], ends₁ [94, 125],
  ends₂ [60, 96, 123] ++ moves [0x61, 0x65, 0x6f, 0x85], ends₁ [60, 96],
  ends₁ [123] ++ moves [0x62, 0x63, 0x66, 0x69, 0x70, 0x77, 0x86, 0x99],
  ends₄ [92, 195, 208] ++ moves [0x64, 0x67, 0x68, 0x6a, 0x6b, 0x71, 0x74, 0x78, 0x7e, 0x87, 0x8e, 0x9a, 0xa9],
  ends₃ [92, 195, 208] ++ ends₄ [128, 130, 131, 162, 184, 194, 224, 226] ++ moves [0x6c, 0x6d],
  ends₂ [92, 195, 208] ++ ends₃ [128, 130], ends₁ [92, 195], ends₁ [208] ++ ends₂ [128, 130], ends₁ [128, 130],
  ends₃ [131, 162, 184, 194, 224, 226] ++ ends₄ [153, 161, 167, 172], ends₂ [131, 162, 184, 194], ends₁ [131, 162],
  ends₁ [184, 194], ends₂ [224, 226] ++ ends₃ [153, 161, 167, 172], ends₁ [224, 226], ends₂ [153, 161, 167, 172],
  ends₁ [153, 161], ends₁ [167, 172],
  moves [0x72, 0x73, 0x75, 0x76, 0x79, 0x7b, 0x7f, 0x82, 0x88, 0x8b, 0x8f, 0x92, 0x9b, 0xa2, 0xaa, 0xb4],
  ends₄ [176, 177, 179, 209, 216, 217, 227, 229, 230] ++ moves [0x7a, 0x7c, 0x7d, 0x80, 0x81, 0x83, 0x84],
  ends₃ [176, 177, 179, 209, 216, 217, 227, 229], ends₂ [176, 177, 179, 209], ends₁ [176, 177], ends₁ [179, 209],
  ends₂ [216, 217, 227, 229], ends₁ [216, 217], ends₁ [227, 229],
  ends₃ [230] ++ ends₄ [129, 132, 133, 134, 136, 146, 154, 156, 160, 163, 164, 169, 170, 173],
  ends₂ [230] ++ ends₃ [129, 132, 133, 134, 136, 146], ends₁ [230] ++ ends₂ [129, 132], ends₁ [129, 132],
  ends₂ [133, 134, 136, 146], ends₁ [133, 134], ends₁ [136, 146], ends₃ [154, 156, 160, 163, 164, 169, 170, 173],
  ends₂ [154, 156, 160, 163], ends₁ [154, 156], ends₁ [160, 163], ends₂ [164, 169, 170, 173], ends₁ [164, 169],
  ends₁ [170, 173],
  moves [0x89, 0x8a, 0x8c, 0x8d, 0x90, 0x91, 0x93, 0x96, 0x9c, 0x9f, 0xa3, 0xa6, 0xab, 0xae, 0xb5, 0xbe],
  ends₄ [178, 181, 185, 186, 187, 189, 190, 196, 198, 228, 232, 233] ++ moves [0x94, 0x95, 0x97, 0x98],
  ends₃ [178, 181, 185, 186, 187, 189, 190, 196], ends₂ [178, 181, 185, 186], ends₁ [178, 181], ends₁ [185, 186],
  ends₂ [187, 189, 190, 196], ends₁ [187, 189], ends₁ [190, 196],
  ends₃ [198, 228, 232, 233] ++ ends₄ [1, 135, 137, 138, 139, 140, 141, 143], ends₂ [198, 228, 232, 233],
  ends₁ [198, 228], ends₁ [232, 233], ends₃ [1, 135, 137, 138, 139, 140, 141, 143], ends₂ [1, 135, 137, 138],
  ends₁ [1, 135], ends₁ [137, 138], ends₂ [139, 140, 141, 143], ends₁ [139, 140], ends₁ [141, 143],
  moves [0x9d, 0x9e, 0xa0, 0xa1, 0xa4, 0xa5, 0xa7, 0xa8, 0xac, 0xad, 0xaf, 0xb1, 0xb6, 0xb9, 0xbf, 0xcf],
  ends₄ [147, 149, 150, 151, 152, 155, 157, 158, 165, 166, 168, 174, 175, 180, 182, 183],
  ends₃ [147, 149, 150, 151, 152, 155, 157, 158], ends₂ [147, 149, 150, 151], ends₁ [147, 149], ends₁ [150, 151],
  ends₂ [152, 155, 157, 158], ends₁ [152, 155], ends₁ [157, 158], ends₃ [165, 166, 168, 174, 175, 180, 182, 183],
  ends₂ [165, 166, 168, 174], ends₁ [165, 166], ends₁ [168, 174], ends₂ [175, 180, 182, 183], ends₁ [175, 180],
  ends₁ [182, 183],
  ends₄ [188, 191, 197, 231, 239] ++ moves [0xb0, 0xb2, 0xb3, 0xb7, 0xb8, 0xba, 0xbb, 0xc0, 0xc7, 0xd0, 0xdf],
  ends₃ [188, 191, 197, 231, 239] ++ ends₄ [9, 142, 144, 145, 148, 159], ends₂ [188, 191, 197, 231],
  ends₁ [188, 191], ends₁ [197, 231], ends₂ [239] ++ ends₃ [9, 142, 144, 145, 148, 159],
  ends₁ [239] ++ ends₂ [9, 142], ends₁ [9, 142], ends₂ [144, 145, 148, 159], ends₁ [144, 145], ends₁ [148, 159],
  ends₄ [171, 206, 215, 225, 236, 237] ++ moves [0xbc, 0xbd, 0xc1, 0xc4, 0xc8, 0xcb, 0xd1, 0xd8, 0xe0, 0xee],
  ends₃ [171, 206, 215, 225, 236, 237] ++ ends₄ [199, 207, 234, 235], ends₂ [171, 206, 215, 225], ends₁ [171, 206],
  ends₁ [215, 225], ends₂ [236, 237] ++ ends₃ [199, 207, 234, 235], ends₁ [236, 237], ends₂ [199, 207, 234, 235],
  ends₁ [199, 207], ends₁ [234, 235],
  moves [0xc2, 0xc3, 0xc5, 0xc6, 0xc9, 0xca, 0xcc, 0xcd, 0xd2, 0xd5, 0xd9, 0xdc, 0xe1, 0xe7, 0xef, 0xf6],
  ends₄ [192, 193, 200, 201, 202, 205, 210, 213, 218, 219, 238, 240, 242, 243, 255] ++ moves [0xce],
  ends₃ [192, 193, 200, 201, 202, 205, 210, 213], ends₂ [192, 193, 200, 201], ends₁ [192, 193], ends₁ [200, 201],
  ends₂ [202, 205, 210, 213], ends₁ [202, 205], ends₁ [210, 213],
  ends₃ [218, 219, 238, 240, 242, 243, 255] ++ ends₄ [203, 204], ends₂ [218, 219, 238, 240], ends₁ [218, 219],
  ends₁ [238, 240], ends₂ [242, 243, 255] ++ ends₃ [203, 204], ends₁ [242, 243], ends₁ [255] ++ ends₂ [203, 204],
  ends₁ [203, 204],
  moves [0xd3, 0xd4, 0xd6, 0xd7, 0xda, 0xdb, 0xdd, 0xde, 0xe2, 0xe4, 0xe8, 0xeb, 0xf0, 0xf3, 0xf7, 0xfa],
  ends₄ [211, 212, 214, 221, 222, 223, 241, 244, 245, 246, 247, 248, 250, 251, 252, 253],
  ends₃ [211, 212, 214, 221, 222, 223, 241, 244], ends₂ [211, 212, 214, 221], ends₁ [211, 212], ends₁ [214, 221],
  ends₂ [222, 223, 241, 244], ends₁ [222, 223], ends₁ [241, 244], ends₃ [245, 246, 247, 248, 250, 251, 252, 253],
  ends₂ [245, 246, 247, 248], ends₁ [245, 246], ends₁ [247, 248], ends₂ [250, 251, 252, 253], ends₁ [250, 251],
  ends₁ [252, 253],
  ends₄ [254] ++ moves [0xe3, 0xe5, 0xe6, 0xe9, 0xea, 0xec, 0xed, 0xf1, 0xf2, 0xf4, 0xf5, 0xf8, 0xf9, 0xfb, 0xfc],
  ends₃ [254] ++ ends₄ [2, 3, 4, 5, 6, 7, 8, 11, 12, 14, 15, 16, 17, 18], ends₂ [254] ++ ends₃ [2, 3, 4, 5, 6, 7],
  ends₁ [254] ++ ends₂ [2, 3], ends₁ [2, 3], ends₂ [4, 5, 6, 7], ends₁ [4, 5], ends₁ [6, 7],
  ends₃ [8, 11, 12, 14, 15, 16, 17, 18], ends₂ [8, 11, 12, 14], ends₁ [8, 11], ends₁ [12, 14],
  ends₂ [15, 16, 17, 18], ends₁ [15, 16], ends₁ [17, 18],
  ends₄ [19, 20, 21, 23, 24, 25, 26, 27, 28, 29, 30, 31, 127, 220, 249] ++ moves [0xfd],
  ends₃ [19, 20, 21, 23, 24, 25, 26, 27], ends₂ [19, 20, 21, 23], ends₁ [19, 20], ends₁ [21, 23],
  ends₂ [24, 25, 26, 27], ends₁ [24, 25], ends₁ [26, 27],
  ends₃ [28, 29, 30, 31, 127, 220, 249] ++ moves [0xfe, 0xff], ends₂ [28, 29, 30, 31], ends₁ [28, 29],
  ends₁ [30, 31], ends₂ [127, 220, 249] ++ ends₄ [10, 13, 22] ++ moves [0x100], ends₁ [127, 220],
  ends₁ [249] ++ ends₃ [10, 13, 22] ++ moves [0x100, 0x100], ends₂ [10, 13, 22] ++ moves (.replicate 4 0x100),
  ends₁ [10, 13], ends₁ [22] ++ moves (.replicate 8 0x100), moves (.replicate 16 0x100)]

end Wireform.Http2.Hpack
