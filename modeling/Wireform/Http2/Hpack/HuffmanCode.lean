/-
  The Huffman code of HPACK, and the automaton that decodes it.

  * `stateLabel s` is what the decoder has read since the last symbol when it is
    in state `s`;
  * `huffmanCode_prefixFree`: the encode table is a prefix code;
  * `huffmanAutomaton_lawful`: the decode table is an automaton that reads it.

  Both tables are checked by evaluation, entry by entry.
-/
import Mathlib.Data.List.Infix
import Mathlib.Tactic.IntervalCases
import Wireform.PrefixCode
import Wireform.Http2.Hpack.Huffman

namespace Wireform.Http2.Hpack

open PrefixCode

/-! ## Piece by piece -/

/-- A list is checked `n` entries at a time. -/
theorem all_of_pieces {α : Type} {p : α → Bool} (n : Nat) : ∀ (m : Nat) {xs : List α}, xs.length ≤ n * m →
    (∀ k < m, ((xs.drop (n * k)).take n).all p = true) → xs.all p = true
  | 0, xs, hlen, _ => by
    obtain rfl : xs = [] := List.length_eq_zero_iff.1 (by simpa using hlen)
    rfl
  | m + 1, xs, hlen, h => by
    rw [← List.take_append_drop n xs, List.all_append, Bool.and_eq_true]
    refine ⟨by simpa using h 0 (Nat.succ_pos m), all_of_pieces n m ?_ fun k hk => ?_⟩
    · rw [List.length_drop]
      rw [Nat.mul_succ] at hlen
      omega
    · rw [List.drop_drop, Nat.add_comm, ← Nat.mul_succ]
      exact h (k + 1) (Nat.succ_lt_succ hk)

/-! ## The code -/

/-- The code word of a byte, bit by bit. -/
def huffmanCode (b : UInt8) : List Bool := bitsOf (huffSym b).bits (huffSym b).code

/-- One code word starts the other. -/
def comparable (c d : HuffSym) : Bool :=
  bif Nat.ble c.bits d.bits then Nat.beq (d.code / 2 ^ (d.bits - c.bits)) c.code
  else Nat.beq (c.code / 2 ^ (c.bits - d.bits)) d.code

/-- No entry is comparable to a later one. -/
def allApart : List HuffSym → Bool
  | [] => true
  | c :: cs => (cs.all fun d => !comparable c d) && allApart cs

theorem pairwise_of_allApart : ∀ {cs : List HuffSym}, allApart cs = true →
    cs.Pairwise fun c d => comparable c d = false
  | [], _ => List.Pairwise.nil
  | c :: cs, h => by
    obtain ⟨hc, hcs⟩ := Bool.and_eq_true_iff.1 h
    refine List.pairwise_cons.2 ⟨fun d hd => ?_, pairwise_of_allApart hcs⟩
    simpa using List.all_eq_true.1 hc d hd

/-- The first entry is not comparable to a later one. -/
def headApart : List HuffSym → Bool
  | [] => true
  | c :: cs => cs.all fun d => !comparable c d

theorem allApart_of_tails : ∀ {cs : List HuffSym}, cs.tails.all headApart = true → allApart cs = true
  | [], _ => rfl
  | c :: cs, h => by
    rw [List.tails, List.all_cons, Bool.and_eq_true] at h
    rw [allApart, Bool.and_eq_true]
    exact ⟨h.1, allApart_of_tails h.2⟩

set_option maxRecDepth 2000 in
theorem huffEncodeTable_small : (huffEncodeTable.all fun c => Nat.blt c.code (2 ^ c.bits)) = true := rfl

set_option maxRecDepth 2000 in
theorem huffEncodeTable_length : huffEncodeTable.length = 257 := rfl

theorem huffEncodeTable_apart : huffEncodeTable.Pairwise fun c d => comparable c d = false := by
  refine pairwise_of_allApart (allApart_of_tails (all_of_pieces 32 9 ?_ fun k hk => ?_))
  · rw [List.length_tails, huffEncodeTable_length]
    decide
  · interval_cases k <;> decide +kernel

/-- The entry of the end of the string. -/
def eosSym : HuffSym := ⟨0x3fffffff, 30⟩

set_option maxRecDepth 2000 in
theorem huffEncodeTable_eos : huffEncodeTable[256]? = some eosSym := rfl

theorem huffSym_get (b : UInt8) : huffEncodeTable[b.toNat]? = some (huffSym b) := by
  have hb : b.toNat < huffEncodeTable.length := by
    have := b.toNat_lt
    rw [huffEncodeTable_length]; omega
  rw [huffSym, List.getD_eq_getElem?_getD, List.getElem?_eq_getElem hb, Option.getD_some]

theorem code_small {c : HuffSym} (h : c ∈ huffEncodeTable) : c.code < 2 ^ c.bits := by
  have := List.all_eq_true.1 huffEncodeTable_small c h
  simpa [Nat.blt_eq] using this

/-- A number whose bits start those of another one is its high part. -/
theorem div_of_prefix {w k m n : Nat} (hm : m < 2 ^ w) (hn : n < 2 ^ (w + k))
    (h : bitsOf w m <+: bitsOf (w + k) n) : n / 2 ^ k = m := by
  rw [bitsOf_add] at h
  have hp : bitsOf w m = bitsOf w (n >>> k) :=
    (List.prefix_of_prefix_length_le h (List.prefix_append _ _) (by simp)).eq_of_length (by simp)
  have hlt : n >>> k < 2 ^ w := by
    rw [Nat.shiftRight_eq_div_pow, Nat.div_lt_iff_lt_mul (Nat.two_pow_pos k), ← Nat.pow_add]
    exact hn
  rw [← Nat.shiftRight_eq_div_pow]
  exact (bitsOf_inj hm hlt hp).symm

/-- Entries that are not comparable do not start each other. -/
theorem prefixes_apart {c d : HuffSym} (hc : c ∈ huffEncodeTable) (hd : d ∈ huffEncodeTable)
    (h : comparable c d = false) :
    ¬ bitsOf c.bits c.code <+: bitsOf d.bits d.code ∧
      ¬ bitsOf d.bits d.code <+: bitsOf c.bits c.code := by
  have hc' := code_small hc
  have hd' := code_small hd
  unfold comparable at h
  constructor
  · intro hp
    have hle : c.bits ≤ d.bits := by simpa using hp.length_le
    obtain ⟨k, hk⟩ := Nat.exists_eq_add_of_le hle
    rw [Nat.ble_eq_true_of_le hle, cond_true, hk, Nat.add_sub_cancel_left] at h
    rw [hk] at hp hd'
    have := div_of_prefix hc' hd' hp
    simp [this] at h
  · intro hp
    have hle : d.bits ≤ c.bits := by simpa using hp.length_le
    obtain ⟨k, hk⟩ := Nat.exists_eq_add_of_le hle
    rw [hk] at hp hc'
    have hdiv := div_of_prefix hd' hc' hp
    by_cases hk0 : k = 0
    · subst hk0
      rw [hk, Nat.add_zero, Nat.ble_eq_true_of_le le_rfl, cond_true, Nat.sub_self] at h
      simp_all
    · have hgt : Nat.ble (d.bits + k) d.bits = false := by
        rw [← Bool.not_eq_true, Nat.ble_eq]; omega
      rw [hk, hgt, cond_false, Nat.add_sub_cancel_left, hdiv] at h
      simp at h

/-- Code words at different places of the table are apart. -/
theorem apart_of_ne {i j : Nat} {c d : HuffSym} (hi : huffEncodeTable[i]? = some c)
    (hj : huffEncodeTable[j]? = some d) (hne : i ≠ j) :
    ¬ bitsOf c.bits c.code <+: bitsOf d.bits d.code := by
  have hc := List.mem_of_getElem? hi
  have hd := List.mem_of_getElem? hj
  obtain ⟨hil, rfl⟩ := List.getElem?_eq_some_iff.1 hi
  obtain ⟨hjl, rfl⟩ := List.getElem?_eq_some_iff.1 hj
  rcases Nat.lt_or_gt_of_ne hne with hlt | hlt
  · exact (prefixes_apart hc hd (List.pairwise_iff_getElem.1 huffEncodeTable_apart i j hil hjl hlt)).1
  · exact (prefixes_apart hd hc (List.pairwise_iff_getElem.1 huffEncodeTable_apart j i hjl hil hlt)).2

theorem eq_of_prefix (a b : UInt8) (h : huffmanCode a <+: huffmanCode b) : a = b := by
  by_contra hne
  exact apart_of_ne (huffSym_get a) (huffSym_get b) (fun he => hne (UInt8.toNat_inj.1 he)) h

/-- **The code words of the table are prefix-free.** -/
theorem huffmanCode_prefixFree : PrefixFree huffmanCode := PrefixFree.of_prefix eq_of_prefix

/-- The end of the string: thirty ones. -/
def eos : List Bool := bitsOf 30 0x3fffffff

theorem eos_apart (a : UInt8) : ¬ huffmanCode a <+: eos ∧ ¬ eos <+: huffmanCode a := by
  have ha := a.toNat_lt
  exact ⟨apart_of_ne (huffSym_get a) huffEncodeTable_eos (by omega),
    apart_of_ne huffEncodeTable_eos (huffSym_get a) (by omega)⟩

/-! ## The states -/

/-- What was read since the last symbol, for every state: how many bits, and a byte whose code word they start. -/
def stateLabels : List (List (Nat × Nat)) := [
  [(0, 0), (1, 32), (2, 48), (3, 48), (4, 48), (4, 50), (3, 99), (4, 99), (4, 105), (2, 32), (3, 32), (4, 115),
   (4, 32), (5, 32), (5, 45), (3, 47)],
  [(4, 47), (5, 47), (5, 52), (4, 54), (5, 54), (5, 56), (1, 0), (2, 58), (3, 61), (4, 61), (5, 61), (5, 95),
   (4, 100), (5, 100), (5, 103), (3, 58)],
  [(4, 108), (5, 108), (5, 110), (4, 58), (5, 114), (5, 58), (6, 58), (6, 67), (2, 0), (3, 69), (4, 69), (5, 69),
   (6, 69), (6, 71), (5, 73), (6, 73)],
  [(6, 75), (4, 77), (5, 77), (6, 77), (6, 79), (5, 81), (6, 81), (6, 83), (3, 0), (4, 85), (5, 85), (6, 85), (6, 87),
   (5, 106), (6, 106), (6, 113)],
  [(4, 0), (5, 119), (6, 119), (6, 121), (5, 0), (6, 38), (7, 38), (7, 44), (6, 0), (7, 88), (7, 0), (8, 33), (9, 33),
   (9, 40), (8, 0), (9, 39)],
  [(10, 39), (9, 0), (10, 35), (11, 35), (10, 0), (11, 0), (12, 0), (12, 64), (11, 1), (12, 93), (12, 1), (13, 94),
   (13, 1), (14, 60), (14, 1), (15, 1)],
  [(16, 92), (17, 92), (18, 92), (18, 128), (19, 128), (17, 131), (18, 131), (19, 131), (19, 184), (18, 153),
   (19, 224), (19, 153), (20, 153), (20, 167), (16, 1), (17, 129)],
  [(18, 176), (19, 176), (20, 176), (20, 179), (19, 216), (20, 216), (20, 227), (18, 129), (19, 129), (20, 129),
   (21, 129), (20, 133), (21, 133), (21, 136), (19, 154), (20, 154)],
  [(21, 154), (21, 160), (20, 164), (21, 164), (21, 170), (17, 1), (18, 1), (19, 178), (20, 178), (21, 178),
   (21, 185), (20, 187), (21, 187), (21, 190), (19, 1), (20, 198)],
  [(21, 198), (21, 232), (20, 1), (21, 1), (22, 1), (22, 137), (21, 139), (22, 139), (22, 141), (18, 2), (19, 147),
   (20, 147), (21, 147), (22, 147), (22, 150), (21, 152)],
  [(22, 152), (22, 157), (20, 165), (21, 165), (22, 165), (22, 168), (21, 175), (22, 175), (22, 182), (19, 2),
   (20, 9), (21, 188), (22, 188), (22, 197), (21, 9), (22, 9)],
  [(23, 9), (22, 144), (23, 144), (23, 148), (20, 2), (21, 171), (22, 171), (23, 171), (23, 215), (22, 199),
   (23, 236), (23, 199), (24, 199), (24, 234), (21, 2), (22, 192)],
  [(23, 192), (24, 192), (25, 192), (25, 200), (24, 202), (25, 202), (25, 210), (23, 203), (24, 218), (25, 218),
   (25, 238), (24, 203), (25, 242), (25, 203), (26, 203), (22, 2)],
  [(23, 211), (24, 211), (25, 211), (26, 211), (26, 214), (25, 222), (26, 222), (26, 241), (24, 245), (25, 245),
   (26, 245), (26, 247), (25, 250), (26, 250), (26, 252), (23, 2)],
  [(24, 2), (25, 2), (26, 2), (27, 2), (26, 4), (27, 4), (27, 6), (25, 8), (26, 8), (27, 8), (27, 12), (26, 15),
   (27, 15), (27, 17), (24, 10), (25, 19)],
  [(26, 19), (27, 19), (27, 21), (26, 24), (27, 24), (27, 26), (25, 10), (26, 28), (27, 28), (27, 30), (26, 10),
   (27, 127), (27, 10), (28, 10), (29, 10), (29, 22)]]

/-- The bits of a state, their value, and the byte. -/
def stateLabel (s : Nat) : Nat × Nat × Nat :=
  match (stateLabels.getD (s / 16) []).getD (s % 16) (0, 0) with
  | (len, sym) =>
    match huffEncodeTable.getD sym ⟨0, 0⟩ with
    | ⟨code, bits⟩ => (len, code / 2 ^ (bits - len), sym)

/-- The padding that the decoder accepts: up to seven ones. -/
def isPadding (len val : Nat) : Bool := Nat.ble len 7 && Nat.beq (val + 1) (2 ^ len)

/-- What a transition may be, from a label and four more bits. -/
def entryOk (len val nibble : Nat) (e : DecodeEntry) : Bool :=
  bif Nat.beq e.fstate 0x100 then
    Nat.ble 30 (len + 4) && Nat.beq ((val * 16 + nibble) / 2 ^ (len + 4 - 30)) 0x3fffffff
  else
    match stateLabel e.fstate with
    | (len', val', _) =>
      Nat.blt e.fstate 256 && (Nat.beq (e.flags % 2) 1 == isPadding len' val') &&
      bif Nat.beq (e.flags / 2 % 2) 1 then
        match huffEncodeTable.getD e.sym ⟨0, 0⟩ with
        | ⟨code, bits⟩ =>
          Nat.blt e.sym 256 && Nat.beq (bits + len') (len + 4) &&
            Nat.beq (code * 2 ^ len' + val') (val * 16 + nibble)
      else Nat.beq len' (len + 4) && Nat.beq val' (val * 16 + nibble)

attribute [grind =] entryOk

/-- A label is open: a code word goes on after it. -/
def labelOk (label : Nat × Nat × Nat) : Bool :=
  match huffEncodeTable.getD label.2.2 ⟨0, 0⟩ with
  | ⟨code, bits⟩ =>
    Nat.blt label.2.2 256 && Nat.blt label.2.1 (2 ^ label.1) && Nat.blt label.1 bits &&
      Nat.beq (code / 2 ^ (bits - label.1)) label.2.1

attribute [grind =] labelOk

set_option maxRecDepth 2000 in
theorem huffDecodeTable_shape : huffDecodeTable.length = 257 ∧
    (huffDecodeTable.all fun row => Nat.beq row.length 16) = true := ⟨rfl, rfl⟩

theorem huffDecodeTable_ok : ((List.range 256).all fun s => labelOk (stateLabel s)) = true ∧
    (huffDecodeTable.zipIdx.all fun r =>
      Nat.beq r.2 256 || match stateLabel r.2 with
        | (len, val, _) => r.1.zipIdx.all fun e => entryOk len val e.2 e.1) = true := by
  constructor
  · refine all_of_pieces 32 8 (by rw [List.length_range]) fun k hk => ?_
    interval_cases k <;> decide +kernel
  · refine all_of_pieces 32 9 ?_ fun k hk => ?_
    · rw [List.length_zipIdx, huffDecodeTable_shape.1]
      decide
    · interval_cases k <;> decide +kernel

/-! ## The automaton -/

def labelBits (s : Nat) : List Bool := bitsOf (stateLabel s).1 (stateLabel s).2.1

/-- The decode table as an automaton that reads four bits at a time. -/
def huffmanAutomaton : Automaton UInt8 Nat (Fin 16) where
  code := huffmanCode
  letter i := bitsOf 4 i.val
  label := labelBits
  step s i :=
    let e := huffEntry s i.val
    if e.fstate = 0x100 then none
    else some (e.fstate, if e.flags &&& 2 ≠ 0 then some (UInt8.ofNat e.sym) else none)

theorem huffEntry_ok {s : Nat} (hs : s < 256) (i : Fin 16) :
    entryOk (stateLabel s).1 (stateLabel s).2.1 i.val (huffEntry s i.val) = true := by
  obtain ⟨hlen, hrows⟩ := huffDecodeTable_shape
  have hs' : s < huffDecodeTable.length := by omega
  have hrow : huffDecodeTable[s].length = 16 := by
    have := List.all_eq_true.1 hrows _ (List.getElem_mem hs')
    exact Nat.eq_of_beq_eq_true this
  have hi : i.val < huffDecodeTable[s].length := by have := i.isLt; omega
  have hmem : (huffDecodeTable[s], s) ∈ huffDecodeTable.zipIdx :=
    List.mem_zipIdx_iff_getElem?.2 (List.getElem?_eq_getElem hs')
  have hr := List.all_eq_true.1 huffDecodeTable_ok.2 _ hmem
  have hne : Nat.beq s 256 = false := by
    rw [← Bool.not_eq_true, Nat.beq_eq]; omega
  simp only [hne, Bool.false_or] at hr
  have hmem' : (huffDecodeTable[s][i.val], i.val) ∈ huffDecodeTable[s].zipIdx :=
    List.mem_zipIdx_iff_getElem?.2 (List.getElem?_eq_getElem hi)
  have he := List.all_eq_true.1 hr _ hmem'
  have hentry : huffEntry s i.val = huffDecodeTable[s][i.val] := by
    rw [huffEntry, List.getD_eq_getElem?_getD, List.getD_eq_getElem?_getD,
      List.getElem?_eq_getElem hs', Option.getD_some, List.getElem?_eq_getElem hi, Option.getD_some]
  rw [hentry]
  exact he

theorem labelBits_append (s : Nat) (i : Fin 16) : labelBits s ++ bitsOf 4 i.val =
    bitsOf ((stateLabel s).1 + 4) ((stateLabel s).2.1 * 16 + i.val) :=
  bitsOf_append _ _ i.isLt

theorem labelOk_of_lt {s : Nat} (hs : s < 256) : labelOk (stateLabel s) = true :=
  List.all_eq_true.1 huffDecodeTable_ok.1 s (List.mem_range.2 hs)

theorem huffSym_ofNat {n : Nat} (h : n < 256) :
    huffSym (UInt8.ofNat n) = huffEncodeTable.getD n ⟨0, 0⟩ := by
  rw [huffSym, UInt8.toNat_ofNat', Nat.mod_eq_of_lt h]

/-- A label starts a code word that is longer. -/
theorem label_prefix {s : Nat} (hs : s < 256) :
    ∃ w : UInt8, labelBits s <+: huffmanCode w ∧ (labelBits s).length < (huffmanCode w).length := by
  have h := labelOk_of_lt hs
  simp only [labelOk, Bool.and_eq_true, Nat.blt_eq] at h
  obtain ⟨⟨⟨hw, -⟩, hlen⟩, hdiv⟩ := h
  refine ⟨UInt8.ofNat (stateLabel s).2.2, ?_, ?_⟩
  · obtain ⟨k, hk⟩ := Nat.exists_eq_add_of_le hlen.le
    rw [huffmanCode, huffSym_ofNat hw, hk, bitsOf_add, Nat.shiftRight_eq_div_pow]
    rw [hk, Nat.add_sub_cancel_left] at hdiv
    rw [Nat.eq_of_beq_eq_true hdiv]
    exact List.prefix_append _ _
  · rw [huffmanCode, huffSym_ofNat hw, labelBits, length_bitsOf, length_bitsOf]
    exact hlen

theorem label_small {s : Nat} (hs : s < 256) : (stateLabel s).2.1 < 2 ^ (stateLabel s).1 := by
  have h := labelOk_of_lt hs
  simp only [labelOk, Bool.and_eq_true, Nat.blt_eq] at h
  exact h.1.1.2

theorem and_two (n : Nat) : n &&& 2 ≠ 0 ↔ n / 2 % 2 = 1 := by
  have h : (n &&& 2).testBit 1 = n.testBit 1 := by
    rw [Nat.testBit_and, show Nat.testBit 2 1 = true from rfl, Bool.and_true]
  constructor
  · intro hne
    by_contra h0
    refine hne (Nat.eq_of_testBit_eq fun i => ?_)
    rw [Nat.testBit_and, Nat.zero_testBit, show 2 = 2 ^ 1 from rfl, Nat.testBit_two_pow]
    by_cases hi : 1 = i
    · subst hi
      rw [Nat.testBit_succ, Nat.testBit_zero]
      simp; omega
    · simp [hi]
  · intro h1 h0
    rw [h0, Nat.zero_testBit, Nat.testBit_succ, Nat.testBit_zero] at h
    simp [h1] at h

theorem huffEntry_next {s : Nat} (hs : s < 256) (i : Fin 16)
    (hf : (huffEntry s i.val).fstate ≠ 0x100) :
    (huffEntry s i.val).fstate < 256 ∧
      ((huffEntry s i.val).flags % 2 = 1 ↔
        isPadding (stateLabel (huffEntry s i.val).fstate).1
          (stateLabel (huffEntry s i.val).fstate).2.1 = true) ∧
      (((huffEntry s i.val).flags &&& 2 ≠ 0 ∧
          huffmanCode (UInt8.ofNat (huffEntry s i.val).sym) ++ labelBits (huffEntry s i.val).fstate =
            labelBits s ++ bitsOf 4 i.val) ∨
        (¬ (huffEntry s i.val).flags &&& 2 ≠ 0 ∧
          labelBits (huffEntry s i.val).fstate = labelBits s ++ bitsOf 4 i.val)) := by
  have h := huffEntry_ok hs i
  have hne : Nat.beq (huffEntry s i.val).fstate 0x100 = false := by
    rw [← Bool.not_eq_true, Nat.beq_eq]; exact hf
  simp only [entryOk, hne, cond_false, Bool.and_eq_true, Nat.blt_eq] at h
  obtain ⟨⟨hlt, hacc⟩, h⟩ := h
  refine ⟨hlt, ?_, ?_⟩
  · rw [beq_iff_eq] at hacc
    rw [← hacc, Nat.beq_eq]
  · rw [and_two, labelBits_append]
    cases hsym : Nat.beq ((huffEntry s i.val).flags / 2 % 2) 1 with
    | true =>
      simp only [hsym, cond_true, Bool.and_eq_true, Nat.blt_eq] at h
      obtain ⟨⟨hb, hlen⟩, hval⟩ := h
      refine Or.inl ⟨Nat.eq_of_beq_eq_true hsym, ?_⟩
      rw [huffmanCode, huffSym_ofNat hb, labelBits, bitsOf_append _ _ (label_small hlt),
        Nat.eq_of_beq_eq_true hlen, Nat.eq_of_beq_eq_true hval]
    | false =>
      simp only [hsym, cond_false, Bool.and_eq_true] at h
      refine Or.inr ⟨fun he => by rw [he] at hsym; simp at hsym, ?_⟩
      rw [labelBits, Nat.eq_of_beq_eq_true h.1, Nat.eq_of_beq_eq_true h.2]

theorem huffEntry_fail {s : Nat} (hs : s < 256) (i : Fin 16)
    (hf : (huffEntry s i.val).fstate = 0x100) : eos <+: labelBits s ++ bitsOf 4 i.val := by
  have h := huffEntry_ok hs i
  have he : Nat.beq (huffEntry s i.val).fstate 0x100 = true := by rw [hf]; rfl
  simp only [entryOk, he, cond_true, Bool.and_eq_true] at h
  have hle : 30 ≤ (stateLabel s).1 + 4 := Nat.le_of_ble_eq_true h.1
  obtain ⟨k, hk⟩ := Nat.exists_eq_add_of_le hle
  have hval := Nat.eq_of_beq_eq_true h.2
  rw [hk, Nat.add_sub_cancel_left] at hval
  rw [labelBits_append, hk, bitsOf_add, Nat.shiftRight_eq_div_pow, hval]
  exact List.prefix_append _ _

/-- **The decode table reads the code of the encode table.** -/
theorem huffmanAutomaton_lawful : huffmanAutomaton.Lawful (· < 256) eos where
  prefixFree := huffmanCode_prefixFree
  step_valid s i s' o hs h := by
    simp only [huffmanAutomaton] at h
    split at h
    · cases h
    · rename_i hf
      cases h
      exact (huffEntry_next hs i hf).1
  step_some s i s' o hs h := by
    simp only [huffmanAutomaton] at h ⊢
    split at h
    · cases h
    · rename_i hf
      obtain ⟨-, -, hnext⟩ := huffEntry_next hs i hf
      cases h
      rcases hnext with ⟨hsym, heq⟩ | ⟨hsym, heq⟩
      · rw [if_pos hsym]
        simpa [encode] using heq
      · rw [if_neg hsym]
        simpa [encode] using heq
  step_none s i hs h := by
    simp only [huffmanAutomaton] at h ⊢
    split at h
    · rename_i hf
      exact huffEntry_fail hs i hf
    · cases h
  label_open s a hs h := by
    obtain ⟨w, hp, hlen⟩ := label_prefix hs
    obtain rfl := eq_of_prefix a w (h.trans hp)
    exact absurd h.length_le (not_le.2 hlen)
  eos_apart := eos_apart

end Wireform.Http2.Hpack
