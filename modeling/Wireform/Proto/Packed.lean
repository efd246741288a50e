/-
  Packed repeated varints (`decodeAllVarints`, `decodeAllSVarint32` and
  `decodeAllSVarint64` of `Proto.Decode`, `hs_proto_count_packed_varints`).

  The output vector is allocated from the number of bytes that end a varint, its
  cells without values; a loop then fills it.  A cell is an option here, without
  a value until it is written.

  * `countPackedVarints_eq`: the three loops of the count;
  * `Reader`: a decoder that reads up to the first last byte; `fill_spec`: the
    loop writes what it reads and stays inside the vector;
  * `packed_correct_iff`: the decoders are right exactly on the inputs in which
    every varint is complete.
-/
import Wireform.Proto.Swar

namespace Wireform.Proto

/-! ## The count -/

/-- The first `k` blocks of `n` bytes. -/
def blocks (n k : Nat) (bs : ByteString) : List ByteString := (List.range k).map fun i => (bs.drop (n * i)).take n

/-- One block of sixteen bytes: the lanes whose high bit is clear are compared to
    all ones, and the signs of the lanes are counted. -/
def countLanes (block : ByteString) : Nat :=
  let isTerm := (block.map fun b => b &&& 0x80).map fun b => if b = 0 then (0xFF : UInt8) else 0
  isTerm.countP fun b => b.toNat.testBit 7

/-- `__builtin_popcountll`. -/
def popcount (w : BitVec 64) : Nat := (List.range 64).countP fun i => w.getLsbD i

/-- One word of eight bytes. -/
def countWord (block : ByteString) : Nat :=
  let termMask := ~~~(loadWord block) &&& signBits
  popcount (termMask >>> 7)

/-- `hs_proto_count_packed_varints`: blocks of sixteen bytes, then words, then
    bytes. -/
def countPackedVarints (bs : ByteString) : Nat :=
  let k := bs.length / 16
  let rest := bs.drop (16 * k)
  let k' := rest.length / 8
  ((blocks 16 k bs).map countLanes).sum + ((blocks 8 k' rest).map countWord).sum +
    (rest.drop (8 * k')).countP (· < 0x80)

theorem blocks_flatten (n : Nat) : ∀ (k : Nat) (bs : ByteString), (blocks n k bs).flatten = bs.take (n * k)
  | 0, bs => by simp [blocks]
  | k + 1, bs => by
    have ih := blocks_flatten n k (bs.drop n)
    have htail : (blocks n (k + 1) bs) = bs.take n :: blocks n k (bs.drop n) := by
      simp only [blocks, List.range_succ_eq_map, List.map_cons, List.map_map]
      congr 1
      refine List.map_congr_left fun i _ => ?_
      simp [Nat.mul_succ, Nat.add_comm]
    rw [htail, List.flatten_cons, ih, Nat.mul_succ, Nat.add_comm, List.take_add]

/-- Blocks that are counted right add up. -/
theorem blocks_sum {count : ByteString → Nat} {n : Nat} (h : ∀ block, block.length = n → count block = block.countP (· < 0x80))
    (k : Nat) (bs : ByteString) (hk : n * k ≤ bs.length) :
    ((blocks n k bs).map count).sum = (bs.take (n * k)).countP (· < 0x80) := by
  rw [← blocks_flatten, List.countP_flatten]
  congr 1
  refine List.map_congr_left fun block hblock => h block ?_
  obtain ⟨i, hi, rfl⟩ := List.mem_map.1 hblock
  rw [List.mem_range] at hi
  have hle : n * (i + 1) ≤ n * k := Nat.mul_le_mul_left n hi
  rw [Nat.mul_succ] at hle
  rw [List.length_take, List.length_drop]
  omega

set_option maxRecDepth 4000 in
theorem and_signBit (b : UInt8) : b &&& 0x80 = 0 ↔ b < 0x80 := by
  have hall : ∀ n < 256, n &&& 128 = 0 ↔ n < 128 := by decide
  rw [← UInt8.toNat_inj, UInt8.toNat_and]
  exact hall b.toNat b.toNat_lt

theorem countLanes_eq (block : ByteString) : countLanes block = block.countP (· < 0x80) := by
  unfold countLanes
  simp only [List.countP_map]
  refine List.countP_congr fun b _ => ?_
  simp only [Function.comp_apply, decide_eq_true_eq, ← and_signBit b]
  split_ifs with h
  · exact iff_of_true (by decide) h
  · exact iff_of_false (by decide) h

/-- The bits of the mask that are left after the shift: those of the last
    bytes. -/
theorem getLsbD_termMask_shift (block : ByteString) (m r : Nat) (hm : m < 8) (hr : r < 8) :
    ((~~~(loadWord block) &&& signBits) >>> 7).getLsbD (8 * m + r) = decide (r = 0 ∧ block.getD m 0 < 0x80) := by
  rw [BitVec.getLsbD_ushiftRight, BitVec.getLsbD_and, getLsbD_signBits]
  by_cases hr0 : r = 0
  · subst hr0
    rw [Nat.add_zero, Nat.add_comm, BitVec.getLsbD_not, loadWord_byte hm (by omega), getLsbD_seven,
      decide_eq_true (show 8 * m + 7 < 64 by omega), decide_eq_true (show 8 * m + 7 < 64 ∧ (8 * m + 7) % 8 = 7 by omega)]
    by_cases hlast : block.getD m 0 < 0x80 <;> simp only [hlast] <;> rfl
  · rw [decide_eq_false (show ¬(7 + (8 * m + r) < 64 ∧ (7 + (8 * m + r)) % 8 = 7) by omega)]
    simp [hr0]

theorem countWord_eq (block : ByteString) (h : block.length = 8) : countWord block = block.countP (· < 0x80) := by
  have hrange : List.range 64 = (List.range 8).flatMap fun m => (List.range 8).map fun r => 8 * m + r := by decide
  unfold countWord popcount
  rw [hrange, List.countP_flatMap]
  have hbyte : ∀ m ∈ List.range 8, ((List.range 8).map fun r => 8 * m + r).countP
      (fun i => ((~~~(loadWord block) &&& signBits) >>> 7).getLsbD i) = if block.getD m 0 < 0x80 then 1 else 0 := by
    intro m hm
    rw [List.mem_range] at hm
    rw [List.countP_map]
    have hbit : (List.range 8).countP ((fun i => ((~~~(loadWord block) &&& signBits) >>> 7).getLsbD i) ∘ fun r => 8 * m + r) =
        (List.range 8).countP fun r => decide (r = 0 ∧ block.getD m 0 < 0x80) := by
      refine List.countP_congr fun r hr => ?_
      rw [Function.comp_apply, getLsbD_termMask_shift block m r hm (List.mem_range.1 hr)]
    rw [hbit]
    by_cases hlast : block.getD m 0 < 0x80
    · simp only [hlast, and_true, if_true]
      rfl
    · simp only [hlast, and_false, if_false]
      rfl
  rw [List.map_congr_left (f := _ ∘ _) hbyte]
  match block, h with
  | [b0, b1, b2, b3, b4, b5, b6, b7], _ => simp [List.range_succ, List.countP_cons]; omega

/-- **The count is the number of bytes that end a varint.** -/
theorem countPackedVarints_eq (bs : ByteString) : countPackedVarints bs = bs.countP (· < 0x80) := by
  unfold countPackedVarints
  dsimp only
  have hk : 16 * (bs.length / 16) ≤ bs.length := Nat.mul_div_le _ _
  have hk' : 8 * ((bs.drop (16 * (bs.length / 16))).length / 8) ≤ (bs.drop (16 * (bs.length / 16))).length :=
    Nat.mul_div_le _ _
  rw [blocks_sum (fun block _ => countLanes_eq block) _ _ hk, blocks_sum countWord_eq _ _ hk', Nat.add_assoc,
    ← List.countP_append, List.take_append_drop, ← List.countP_append, List.take_append_drop]

/-! ## The decoders -/

/-- Decode a ZigZag-encoded value of 32 bits. -/
def unZigZag32 (n : UInt32) : Int32 := ((n >>> 1) ^^^ -(n &&& 1)).toInt32

/-- Decode a ZigZag-encoded value of 64 bits. -/
def unZigZag64 (n : UInt64) : Int64 := ((n >>> 1) ^^^ -(n &&& 1)).toInt64

def getSVarint32 : Decoder Int32 := fun bs off => (getVarint bs off).bind fun w off' => .ok (unZigZag32 w.toUInt32) off'

def getSVarint64 : Decoder Int64 := fun bs off => (getVarint bs off).bind fun w off' => .ok (unZigZag64 w) off'

section
variable {α : Type}

/-- `MVU.unsafeNew`: cells without values. -/
def unsafeNew (α : Type) (n : Nat) : List (Option α) := List.replicate n none

/-- The loop that fills the vector.  It ends at the end of the input, and also
    where the decoder fails; a write outside the vector is a fault. -/
def fill (d : Decoder α) (bs : ByteString) : Nat → List (Option α) → Nat → Int → Run (List (Option α))
  | 0, _, _, _ => .more
  | fuel + 1, mv, idx, off =>
    if off ≥ bsLen bs then .right mv
    else
      match d bs off with
      | .ok v off' => if idx < mv.length then fill d bs fuel (mv.set idx (some v)) (idx + 1) off' else .fault
      | .fail _ => .right mv
      | .fault => .fault
      | .more => .more

attribute [grind =] fill

/-- Count, allocate, fill. -/
def decodeAllWith (d : Decoder α) (bs : ByteString) : Run (List (Option α)) :=
  fill d bs (bs.length + 1) (unsafeNew α (countPackedVarints bs)) 0 0

/-- What the loop of the second strategy reads: varints of one and of two bytes
    inline.  A first byte that is the last of the input ends the loop. -/
def smallVarint : Decoder UInt64 := fun bs off =>
  withByte bs off fun b0 =>
  if b0 < 0x80 then .ok b0.toUInt64 (addInt off 1)
  else if addInt off 1 < bsLen bs then
    withByte bs (addInt off 1) fun b1 =>
    if b1 < 0x80 then .ok (varintBits b0 0 ||| (b1.toUInt64 <<< 7)) (addInt off 2)
    else getVarint bs off
  else .fail .unexpectedEnd

/-- Decode all varints of a packed buffer, by one of three strategies. -/
def decodeAllVarints (bs : ByteString) : Run (List (Option UInt64)) :=
  if bs.isEmpty then .right []
  else
    let n := countPackedVarints bs
    if n = bs.length then .right ((List.range n).map fun i => bs[i]?.map UInt8.toUInt64)
    else if n ≥ bs.length / 2 then decodeAllWith smallVarint bs
    else decodeAllWith getVarint bs

def decodeAllSVarint32 (bs : ByteString) : Run (List (Option Int32)) :=
  if bs.isEmpty then .right [] else decodeAllWith getSVarint32 bs

def decodeAllSVarint64 (bs : ByteString) : Run (List (Option Int64)) :=
  if bs.isEmpty then .right [] else decodeAllWith getSVarint64 bs

end

/-! ## Varints as pieces -/

/-- The bytes of one accepted varint: at most ten, and only the last one ends it. -/
def Piece (p : ByteString) : Prop :=
  ∃ (init : ByteString) (last : UInt8), p = init ++ [last] ∧ init.length < 10 ∧ (∀ b ∈ init, ¬ b < 0x80) ∧ last < 0x80

/-- The value of the bytes of a varint. -/
def varintValue.go : UInt64 → Nat → ByteString → UInt64
  | acc, _, [] => acc
  | acc, shift, b :: p => go (acc ||| varintBits b shift) (shift + 7) p

def varintValue (p : ByteString) : UInt64 := varintValue.go 0 0 p

theorem getVarintLazy_go_piece (init : ByteString) {last : UInt8} (hlast : last < 0x80) (rest : ByteString) :
    ∀ (acc : UInt64) (shift : Nat), shift + 7 * init.length ≤ 63 → (∀ b ∈ init, ¬ b < 0x80) →
      getVarintLazy.go acc shift (init ++ last :: rest) = .ok (varintValue.go acc shift (init ++ [last]), rest) := by
  induction init with
  | nil =>
    intro acc shift hshift _
    rw [List.length_nil, Nat.mul_zero, Nat.add_zero] at hshift
    rw [List.nil_append, getVarintLazy_go_cons hshift, if_pos hlast]
    rfl
  | cons b init ih =>
    intro acc shift hshift hinit
    rw [List.length_cons] at hshift
    rw [List.cons_append, getVarintLazy_go_cons (by omega), if_neg (hinit b List.mem_cons_self),
      ih _ _ (by omega) fun b' hb' => hinit b' (List.mem_cons_of_mem _ hb')]
    rfl

/-- A varint is read to its end. -/
theorem Piece.lazy {p : ByteString} (h : Piece p) (rest : ByteString) :
    getVarintLazy (p ++ rest) = .ok (varintValue p, rest) := by
  obtain ⟨init, last, rfl, hlen, hinit, hlast⟩ := h
  rw [List.append_assoc, List.singleton_append]
  exact getVarintLazy_go_piece init hlast rest 0 0 (by omega) hinit

/-- Where no varint is complete, there is an error. -/
theorem getVarintLazy_go_stuck (s : ByteString) : ∀ (acc : UInt64) (shift k : Nat), shift = 7 * k →
    (∀ init last rest, s = init ++ last :: rest → k + init.length < 10 → (∀ b ∈ init, ¬ b < 0x80) → ¬ last < 0x80) →
      ∃ e, getVarintLazy.go acc shift s = .error e := by
  induction s with
  | nil =>
    intro acc shift k hk _
    by_cases hs : shift ≤ 63
    · exact ⟨_, getVarintLazy_go_nil hs acc⟩
    · exact ⟨_, getVarintLazy_go_stop (not_le.1 hs) acc _⟩
  | cons b s ih =>
    intro acc shift k hk hstuck
    by_cases hs : shift ≤ 63
    · have hb : ¬ b < 0x80 := hstuck [] b s rfl (by rw [List.length_nil]; omega) fun _ h => absurd h List.not_mem_nil
      rw [getVarintLazy_go_cons hs, if_neg hb]
      refine ih _ _ (k + 1) (by omega) fun init last rest hsplit hlen hinit => ?_
      refine hstuck (b :: init) last rest (by rw [hsplit]; rfl) (by rw [List.length_cons]; omega) fun b' hb' => ?_
      rcases List.mem_cons.1 hb' with rfl | hb'
      · exact hb
      · exact hinit b' hb'
    · exact ⟨_, getVarintLazy_go_stop (not_le.1 hs) acc _⟩

theorem getVarintLazy_stuck {s : ByteString} (h : ∀ p rest, s = p ++ rest → ¬Piece p) : ∃ e, getVarintLazy s = .error e := by
  refine getVarintLazy_go_stuck s 0 0 0 rfl fun init last rest hsplit hlen hinit hlast => ?_
  refine h (init ++ [last]) rest ?_ ⟨init, last, rfl, by omega, hinit, hlast⟩
  rw [hsplit, List.append_assoc, List.singleton_append]

/-- A decoder that reads one varint and makes `value` of its bytes. -/
structure Reader {α : Type} (d : Decoder α) (value : ByteString → α) : Prop where
  piece : ∀ {bs off p rest}, Inside bs off → bs.drop off.toNat = p ++ rest → Piece p → d bs off = .ok (value p) (off + p.length)
  stuck : ∀ {bs off}, Inside bs off → (∀ p rest, bs.drop off.toNat = p ++ rest → ¬Piece p) → ∃ e, d bs off = .fail e

theorem reader_getVarint : Reader getVarint varintValue where
  piece := by
    intro bs off p rest h hsplit hp
    have hlen := h.drop_length
    rw [h.getVarint_eq, hsplit, hp.lazy]
    rw [hsplit, List.length_append] at hlen
    rw [ofLazy]
    congr 1
    omega
  stuck := by
    intro bs off h hno
    obtain ⟨e, he⟩ := getVarintLazy_stuck hno
    exact ⟨e, by rw [h.getVarint_eq, he]; rfl⟩

theorem Reader.map {α β : Type} {d : Decoder α} {value : ByteString → α} (h : Reader d value) (f : α → β) :
    Reader (fun bs off => (d bs off).bind fun v off' => .ok (f v) off') fun p => f (value p) where
  piece := by
    intro bs off p rest hin hsplit hp
    rw [h.piece hin hsplit hp]
    rfl
  stuck := by
    intro bs off hin hno
    obtain ⟨e, he⟩ := h.stuck hin hno
    exact ⟨e, by rw [he]; rfl⟩

theorem Piece.ne_nil {p : ByteString} (h : Piece p) : p ≠ [] := by
  obtain ⟨init, last, rfl, -⟩ := h
  exact List.append_ne_nil_of_right_ne_nil _ (List.cons_ne_nil _ _)

/-- A varint has one byte that ends it. -/
theorem Piece.count {p : ByteString} (h : Piece p) : p.countP (· < 0x80) = 1 := by
  obtain ⟨init, last, rfl, -, hinit, hlast⟩ := h
  have hnone : init.countP (· < 0x80) = 0 := List.countP_eq_zero.2 fun b hb => by simpa using hinit b hb
  rw [List.countP_append, hnone, List.countP_singleton, if_pos (by simpa using hlast)]

section
variable {α : Type} {d : Decoder α} {value : ByteString → α} {bs : ByteString}

/-- The decoder accepts exactly the varints. -/
theorem Reader.runDecoder_iff (h : Reader d value) {p : ByteString} (hp : p.length < 2 ^ 63) {v : α} :
    runDecoder d p = .right v ↔ Piece p ∧ v = value p := by
  have hin : Inside p 0 := ⟨le_rfl, by unfold bsLen; omega, by unfold bsLen; omega⟩
  constructor
  · intro hrun
    by_cases hex : ∃ q rest, p.drop (0 : Int).toNat = q ++ rest ∧ Piece q
    · obtain ⟨q, rest, hsplit, hq⟩ := hex
      unfold runDecoder at hrun
      rw [h.piece hin hsplit hq] at hrun
      dsimp only at hrun
      split_ifs at hrun with hall
      cases hrun
      have hp' : p = q ++ rest := hsplit
      unfold bsLen at hall
      rw [hp', List.length_append] at hall
      obtain rfl := List.length_eq_zero_iff.1 (show rest.length = 0 by omega)
      rw [List.append_nil] at hp'
      exact ⟨hp' ▸ hq, by rw [hp']⟩
    · obtain ⟨e, he⟩ := h.stuck hin fun q rest hsplit hq => hex ⟨q, rest, hsplit, hq⟩
      unfold runDecoder at hrun
      rw [he] at hrun
      cases hrun
  · rintro ⟨hpiece, rfl⟩
    unfold runDecoder
    rw [h.piece hin (List.append_nil p).symm hpiece, Int.zero_add]
    exact if_pos rfl

/-! ## The loop -/

theorem fill_congr {d' : Decoder α} (h : ∀ off, Inside bs off → off < bsLen bs → d bs off = d' bs off)
    (hd : Reader d' value) : ∀ (fuel : Nat) (mv : List (Option α)) (idx : Nat) (off : Int), Inside bs off →
      fill d bs fuel mv idx off = fill d' bs fuel mv idx off
  | 0, _, _, _, _ => rfl
  | fuel + 1, mv, idx, off, hin => by
    rw [fill, fill]
    by_cases hend : off ≥ bsLen bs
    · rw [if_pos hend, if_pos hend]
    · rw [if_neg hend, if_neg hend, h off hin (not_le.1 hend)]
      by_cases hex : ∃ q rest, bs.drop off.toNat = q ++ rest ∧ Piece q
      · obtain ⟨q, rest, hsplit, hq⟩ := hex
        have hlen := hin.drop_length
        rw [hsplit, List.length_append] at hlen
        rw [hd.piece hin hsplit hq]
        dsimp only
        split_ifs
        · exact fill_congr h hd fuel _ _ _ (hin.step (by omega) (by omega))
        · rfl
      · obtain ⟨e, he⟩ := hd.stuck hin fun q rest hsplit hq => hex ⟨q, rest, hsplit, hq⟩
        rw [he]

/-- **The loop writes what it reads**, one value for each varint. -/
theorem fill_pieces (h : Reader d value) (ps : List ByteString) : ∀ (fuel : Nat) (done : List α) (off : Int), Inside bs off →
    bs.drop off.toNat = ps.flatten → (∀ p ∈ ps, Piece p) → ps.length < fuel →
      fill d bs fuel (done.map some ++ unsafeNew α ps.length) done.length off = .right ((done ++ ps.map value).map some) := by
  induction ps with
  | nil =>
    intro fuel done off hin hsplit _ hfuel
    have hlen := hin.drop_length
    rw [hsplit, List.flatten_nil, List.length_nil] at hlen
    obtain ⟨fuel, rfl⟩ : ∃ k, fuel = k + 1 := ⟨fuel - 1, by omega⟩
    rw [fill, if_pos (by omega)]
    simp [unsafeNew]
  | cons p ps ih =>
    intro fuel done off hin hsplit hps hfuel
    obtain ⟨fuel, rfl⟩ : ∃ k, fuel = k + 1 := ⟨fuel - 1, by rw [List.length_cons] at hfuel; omega⟩
    have hp := hps p List.mem_cons_self
    have hpos : 0 < p.length := List.length_pos_iff.2 hp.ne_nil
    have hlen := hin.drop_length
    rw [hsplit, List.flatten_cons, List.length_append] at hlen
    have hdrop : bs.drop (off + p.length).toNat = ps.flatten := by
      have hlo := hin.lo
      rw [show (off + p.length).toNat = off.toNat + p.length by omega, ← List.drop_drop, hsplit, List.flatten_cons,
        List.drop_left]
    rw [fill, if_neg (by omega), h.piece hin hsplit hp]
    dsimp only
    rw [if_pos (by simp [unsafeNew])]
    have hset : (done.map some ++ unsafeNew α (p :: ps).length).set done.length (some (value p)) =
        (done ++ [value p]).map some ++ unsafeNew α ps.length := by
      simp [unsafeNew, List.replicate_succ]
    have hidx : done.length + 1 = (done ++ [value p]).length := by rw [List.length_append, List.length_singleton]
    rw [hset, hidx, ih fuel (done ++ [value p]) _ (hin.step (by omega) (by omega)) hdrop
      (fun q hq => hps q (List.mem_cons_of_mem _ hq)) (by rw [List.length_cons] at hfuel; omega)]
    simp

/-- **The loop stays inside the vector**, and never reports an error. -/
theorem fill_right (h : Reader d value) : ∀ (fuel : Nat) (mv : List (Option α)) (idx : Nat) (off : Int), Inside bs off →
    bsLen bs - off < fuel → idx + (bs.drop off.toNat).countP (· < 0x80) ≤ mv.length →
      ∃ cells, fill d bs fuel mv idx off = .right cells
  | 0, mv, idx, off, hin, hfuel, _ => by
    have := hin.hi
    push_cast at hfuel
    omega
  | fuel + 1, mv, idx, off, hin, hfuel, hroom => by
    rw [fill]
    by_cases hend : off ≥ bsLen bs
    · exact ⟨mv, if_pos hend⟩
    · rw [if_neg hend]
      by_cases hex : ∃ q rest, bs.drop off.toNat = q ++ rest ∧ Piece q
      · obtain ⟨q, rest, hsplit, hq⟩ := hex
        have hpos : 0 < q.length := List.length_pos_iff.2 hq.ne_nil
        have hlo := hin.lo
        have hlen := hin.drop_length
        rw [hsplit, List.length_append] at hlen
        rw [hsplit, List.countP_append, hq.count] at hroom
        have hdrop : bs.drop (off + q.length).toNat = rest := by
          rw [show (off + q.length).toNat = off.toNat + q.length by omega, ← List.drop_drop, hsplit, List.drop_left]
        rw [h.piece hin hsplit hq]
        dsimp only
        rw [if_pos (by omega)]
        refine fill_right h fuel _ _ _ (hin.step (by omega) (by omega)) (by push_cast at hfuel; omega) ?_
        rw [hdrop, List.length_set]
        omega
      · obtain ⟨e, he⟩ := h.stuck hin fun q rest hsplit hq => hex ⟨q, rest, hsplit, hq⟩
        rw [he]
        exact ⟨mv, rfl⟩

/-! ## Complete inputs -/

/-- The input ends with the last byte of a varint, and ten continuation bytes
    never follow each other. -/
def Complete (bs : ByteString) : Prop :=
  (∀ b ∈ bs.getLast?, b < 0x80) ∧ ∀ run, run <:+: bs → run.length = 10 → ∃ b ∈ run, b < 0x80

/-- Each string is one varint that `d` accepts. -/
def Accepted (d : Decoder α) (pieces : List ByteString) (vs : List α) : Prop :=
  List.Forall₂ (fun p v => runDecoder d p = .right v) pieces vs

/-- What is promised of a decoder of packed varints: the values, all of them
    written, of a concatenation of accepted varints, and an error otherwise. -/
def PackedCorrect (decodeAll : ByteString → Run (List (Option α))) (d : Decoder α) (bs : ByteString) : Prop :=
  (∀ pieces vs, pieces.flatten = bs → Accepted d pieces vs → decodeAll bs = .right (vs.map some)) ∧
    ((¬∃ pieces vs, pieces.flatten = bs ∧ Accepted d pieces vs) → ∃ e, decodeAll bs = .left e)

/-- Complete inputs are cut into varints. -/
theorem Complete.pieces (h : Complete bs) : ∃ ps : List ByteString, ps.flatten = bs ∧ ∀ p ∈ ps, Piece p := by
  -- `init` are the continuation bytes that the next varint starts with
  suffices hgo : ∀ init : ByteString, (∀ b ∈ init, ¬ b < 0x80) → Complete (init ++ bs) → (bs = [] → init = []) →
      ∃ ps : List ByteString, ps.flatten = init ++ bs ∧ ∀ p ∈ ps, Piece p by
    exact hgo [] (fun _ hb => absurd hb List.not_mem_nil) h fun _ => rfl
  clear h
  induction bs with
  | nil =>
    intro init _ _ hnil
    exact ⟨[], by rw [hnil rfl]; rfl, fun _ hp => absurd hp List.not_mem_nil⟩
  | cons b bs ih =>
    intro init hinit hc _
    have hlen : init.length < 10 := by
      by_contra hge
      obtain ⟨b', hb', hlast⟩ := hc.2 (init.take 10)
        ((List.take_prefix 10 init).isInfix.trans (List.prefix_append init _).isInfix) (by rw [List.length_take]; omega)
      exact hinit b' (List.mem_of_mem_take hb') hlast
    by_cases hb : b < 0x80
    · have hsuffix : Complete bs := by
        refine ⟨fun last hlast => hc.1 last ?_, fun run hrun => hc.2 run ?_⟩
        · have hne : bs ≠ [] := by
            rintro rfl
            cases hlast
          rw [List.getLast?_append_of_ne_nil _ (List.cons_ne_nil _ _), List.getLast?_cons_of_ne_nil hne]
          exact hlast
        · exact hrun.trans ((List.suffix_cons b bs).isInfix.trans (List.suffix_append init _).isInfix)
      obtain ⟨ps, hps, hpieces⟩ := ih [] (fun _ h => absurd h List.not_mem_nil) hsuffix fun _ => rfl
      refine ⟨(init ++ [b]) :: ps, by rw [List.flatten_cons, hps]; simp, fun p hp => ?_⟩
      rcases List.mem_cons.1 hp with rfl | hp
      · exact ⟨init, b, rfl, hlen, hinit, hb⟩
      · exact hpieces p hp
    · obtain ⟨ps, hps, hpieces⟩ := ih (init ++ [b]) (fun b' hb' => by
        rcases List.mem_append.1 hb' with hb' | hb'
        · exact hinit b' hb'
        · exact List.mem_singleton.1 hb' ▸ hb) (by rwa [List.append_assoc, List.singleton_append]) (by
        rintro rfl
        exact absurd (hc.1 b (by simp)) hb)
      exact ⟨ps, by rw [hps, List.append_assoc, List.singleton_append], hpieces⟩

variable {ps : List ByteString}

/-- In a concatenation of varints fewer than ten continuation bytes follow each
    other. -/
theorem run_short (h : ∀ p ∈ ps, Piece p) : ∀ {pre run post : ByteString},
    pre ++ (run ++ post) = ps.flatten → (∀ b ∈ run, ¬ b < 0x80) → run.length < 10 := by
  induction ps with
  | nil =>
    intro pre run post hsplit _
    rw [List.flatten_nil, List.append_eq_nil_iff, List.append_eq_nil_iff] at hsplit
    rw [hsplit.2.1]
    exact Nat.zero_lt_succ _
  | cons p ps ih =>
    intro pre run post hsplit hrun
    obtain ⟨init, last, rfl, hlen, -, hlast⟩ := h p List.mem_cons_self
    rw [List.flatten_cons, List.append_assoc, List.singleton_append, List.append_eq_append_iff] at hsplit
    -- the last byte of the first varint is before the run, or after it
    rcases hsplit with ⟨a, rfl, hsplit⟩ | ⟨a, rfl, hsplit⟩
    · rw [List.length_append] at hlen
      rw [List.append_eq_append_iff] at hsplit
      rcases hsplit with ⟨x, rfl, -⟩ | ⟨x, rfl, hsplit⟩
      · rw [List.length_append] at hlen
        omega
      · cases x with
        | nil =>
          rw [List.append_nil]
          omega
        | cons b x =>
          obtain ⟨rfl, -⟩ := List.cons.inj hsplit
          exact absurd hlast (hrun last (by simp))
    · cases a with
      | nil =>
        cases run with
        | nil => exact Nat.zero_lt_succ _
        | cons b run =>
          obtain ⟨rfl, -⟩ := List.cons.inj hsplit
          exact absurd hlast (hrun last List.mem_cons_self)
      | cons b a =>
        obtain ⟨-, hrest⟩ := List.cons.inj hsplit
        exact ih (fun q hq => h q (List.mem_cons_of_mem _ hq)) hrest.symm hrun

/-- Varints make complete inputs. -/
theorem complete_of_pieces (h : ∀ p ∈ ps, Piece p) : Complete ps.flatten := by
  constructor
  · induction ps with
    | nil => exact fun b hb => by cases hb
    | cons p ps ih =>
      intro b hb
      rw [List.flatten_cons] at hb
      by_cases hne : ps.flatten = []
      · obtain ⟨init, last, rfl, -, -, hlast⟩ := h p List.mem_cons_self
        rw [hne, List.append_nil, List.getLast?_concat] at hb
        cases hb
        exact hlast
      · rw [List.getLast?_append_of_ne_nil _ hne] at hb
        exact ih (fun q hq => h q (List.mem_cons_of_mem _ hq)) b hb
  · rintro run ⟨pre, post, hsplit⟩ hlen
    by_contra hno
    push Not at hno
    rw [List.append_assoc] at hsplit
    have hshort := run_short h hsplit hno
    omega

/-- **The inputs that are concatenations of varints are the complete ones.** -/
theorem complete_iff : Complete bs ↔ ∃ ps : List ByteString, ps.flatten = bs ∧ ∀ p ∈ ps, Piece p := by
  constructor
  · exact Complete.pieces
  · rintro ⟨ps, rfl, hps⟩
    exact complete_of_pieces hps

theorem accepted_iff (h : Reader d value) {vs : List α} (hlen : ps.flatten.length < 2 ^ 63) :
    Accepted d ps vs ↔ (∀ p ∈ ps, Piece p) ∧ vs = ps.map value := by
  induction ps generalizing vs with
  | nil =>
    constructor
    · intro hacc
      cases hacc
      exact ⟨fun _ hp => absurd hp List.not_mem_nil, rfl⟩
    · rintro ⟨-, rfl⟩
      exact .nil
  | cons p ps ih =>
    rw [List.flatten_cons, List.length_append] at hlen
    unfold Accepted at ih ⊢
    constructor
    · intro hacc
      cases hacc with
      | cons hp hps =>
        obtain ⟨hpiece, rfl⟩ := (h.runDecoder_iff (by omega)).1 hp
        obtain ⟨hpieces, rfl⟩ := (ih (by omega)).1 hps
        exact ⟨List.forall_mem_cons.2 ⟨hpiece, hpieces⟩, rfl⟩
    · rintro ⟨hpieces, rfl⟩
      obtain ⟨hpiece, hpieces⟩ := List.forall_mem_cons.1 hpieces
      exact .cons ((h.runDecoder_iff (by omega)).2 ⟨hpiece, rfl⟩) ((ih (by omega)).2 ⟨hpieces, rfl⟩)

/-! ## What the decoders promise -/

theorem inside_zero (hlen : bs.length < 2 ^ 63) : Inside bs 0 :=
  ⟨le_rfl, by unfold bsLen; omega, by unfold bsLen; omega⟩

theorem count_pieces (h : ∀ p ∈ ps, Piece p) : ps.flatten.countP (· < 0x80) = ps.length := by
  induction ps with
  | nil => rfl
  | cons p ps ih =>
    rw [List.flatten_cons, List.countP_append, (h p List.mem_cons_self).count, ih fun q hq => h q (List.mem_cons_of_mem _ hq),
      List.length_cons, Nat.add_comm]

theorem length_pieces_le (h : ∀ p ∈ ps, Piece p) : ps.length ≤ ps.flatten.length := by
  rw [← count_pieces h]
  exact List.countP_le_length

theorem decodeAllWith_pieces (h : Reader d value) (hlen : ps.flatten.length < 2 ^ 63)
    (hps : ∀ p ∈ ps, Piece p) : decodeAllWith d ps.flatten = .right ((ps.map value).map some) := by
  have hle := length_pieces_le hps
  rw [decodeAllWith, countPackedVarints_eq, count_pieces hps]
  exact fill_pieces h ps _ [] 0 (inside_zero hlen) rfl hps (by omega)

theorem decodeAllWith_right (h : Reader d value) (hlen : bs.length < 2 ^ 63) : ∃ cells, decodeAllWith d bs = .right cells := by
  rw [decodeAllWith, countPackedVarints_eq]
  refine fill_right h _ _ _ _ (inside_zero hlen) (by unfold bsLen; push_cast; omega) ?_
  simp [unsafeNew]

/-- A decoder that gives the values of the varints, and never an error, is right
    exactly on the complete inputs. -/
theorem packedCorrect_iff {decodeAll : ByteString → Run (List (Option α))} (h : Reader d value) (hlen : bs.length < 2 ^ 63)
    (right : ∃ cells, decodeAll bs = .right cells)
    (pieces : ∀ ps : List ByteString, ps.flatten = bs → (∀ p ∈ ps, Piece p) → decodeAll bs = .right ((ps.map value).map some)) :
    PackedCorrect decodeAll d bs ↔ Complete bs := by
  rw [complete_iff]
  constructor
  · rintro ⟨-, hleft⟩
    by_contra hno
    obtain ⟨e, he⟩ := hleft fun ⟨ps, vs, hps, hacc⟩ =>
      hno ⟨ps, hps, ((accepted_iff h (by rw [hps]; exact hlen)).1 hacc).1⟩
    obtain ⟨cells, hcells⟩ := right
    rw [he] at hcells
    cases hcells
  · rintro ⟨ps, hps, hpieces⟩
    refine ⟨fun qs vs hqs hacc => ?_, fun hno => absurd ⟨ps, ps.map value, hps, ?_⟩ hno⟩
    · obtain ⟨hq, rfl⟩ := (accepted_iff h (by rw [hqs]; exact hlen)).1 hacc
      exact pieces qs hqs hq
    · exact (accepted_iff h (by rw [hps]; exact hlen)).2 ⟨hpieces, rfl⟩

end

/-! ## The three strategies -/

/-- The inlined varints of one and of two bytes are those of the full decoder. -/
theorem smallVarint_eq {bs : ByteString} {off : Int} (h : Inside bs off) (hlt : off < bsLen bs) :
    smallVarint bs off = getVarint bs off := by
  obtain ⟨b0, e0, -⟩ := h.drop hlt
  unfold smallVarint
  rw [withByte_get h.lo e0]
  by_cases s0 : b0 < 0x80
  · unfold getVarint
    rw [if_pos s0, if_neg (not_le.2 hlt), withByte_get h.lo e0, if_pos s0]
  · rw [if_neg s0, h.add (show (0 : Int) ≤ 1 by omega) (by omega)]
    by_cases l1 : off + 1 < bsLen bs
    · obtain ⟨b1, e1, -⟩ := (h.step (show off ≤ off + 1 by omega) (by omega)).drop l1
      have h1 : (0 : Int) ≤ off + 1 := by have := h.lo; omega
      rw [if_pos l1, withByte_get h1 e1]
      by_cases s1 : b1 < 0x80
      · unfold getVarint
        rw [if_pos s1, if_neg (not_le.2 hlt), withByte_get h.lo e0, if_neg s0, h.add (show (0 : Int) ≤ 1 by omega) (by omega),
          if_neg (not_le.2 l1), withByte_get h1 e1, if_pos s1]
      · rw [if_neg s1]
    · unfold getVarint
      rw [if_neg l1, if_neg (not_le.2 hlt), withByte_get h.lo e0, if_neg s0, h.add (show (0 : Int) ≤ 1 by omega) (by omega),
        if_pos (not_lt.1 l1)]

theorem decodeAllWith_small {bs : ByteString} (hlen : bs.length < 2 ^ 63) :
    decodeAllWith smallVarint bs = decodeAllWith getVarint bs :=
  fill_congr (fun _ hin hlt => smallVarint_eq hin hlt) reader_getVarint _ _ _ _ (inside_zero hlen)

/-- Where every byte ends a varint, the bytes are the values. -/
theorem pieces_single {ps : List ByteString} (h : ∀ p ∈ ps, Piece p) (hsmall : ∀ b ∈ ps.flatten, b < 0x80) :
    ps.flatten.map UInt8.toUInt64 = ps.map varintValue := by
  induction ps with
  | nil => rfl
  | cons p ps ih =>
    obtain ⟨init, last, rfl, -, hinit, hlast⟩ := h p List.mem_cons_self
    cases init with
    | nil =>
      rw [List.flatten_cons, List.map_append, List.map_cons,
        ih (fun q hq => h q (List.mem_cons_of_mem _ hq)) fun b hb => hsmall b (by
          rw [List.flatten_cons]
          exact List.mem_append_right _ hb)]
      simp [varintValue, varintValue.go, varintBits, varintBits_small hlast]
    | cons b init =>
      exact absurd (hsmall b (by simp)) (hinit b List.mem_cons_self)

/-- The values of the first strategy. -/
theorem range_cells (bs : ByteString) :
    ((List.range bs.length).map fun i => bs[i]?.map UInt8.toUInt64) = (bs.map UInt8.toUInt64).map some := by
  refine List.ext_getElem? fun i => ?_
  by_cases hi : i < bs.length
  · simp [hi]
  · simp [hi]

theorem decodeAllVarints_right {bs : ByteString} (hlen : bs.length < 2 ^ 63) : ∃ cells, decodeAllVarints bs = .right cells := by
  unfold decodeAllVarints
  dsimp only
  split_ifs
  · exact ⟨_, rfl⟩
  · exact ⟨_, rfl⟩
  · rw [decodeAllWith_small hlen]
    exact decodeAllWith_right reader_getVarint hlen
  · exact decodeAllWith_right reader_getVarint hlen

theorem decodeAllVarints_pieces {ps : List ByteString} (hlen : ps.flatten.length < 2 ^ 63) (hps : ∀ p ∈ ps, Piece p) :
    decodeAllVarints ps.flatten = .right ((ps.map varintValue).map some) := by
  have hfull := decodeAllWith_pieces reader_getVarint hlen hps
  unfold decodeAllVarints
  dsimp only
  split_ifs with hnil hcount
  · rw [List.isEmpty_iff] at hnil
    have hle := length_pieces_le hps
    rw [hnil] at hle
    rw [List.length_eq_zero_iff.1 (Nat.le_zero.1 hle)]
    rfl
  · rw [hcount, range_cells, pieces_single hps]
    rw [countPackedVarints_eq, List.countP_eq_length] at hcount
    exact fun b hb => by simpa using hcount b hb
  · rw [decodeAllWith_small hlen, hfull]
  · exact hfull

section
variable {α : Type} {d : Decoder α} {value : ByteString → α} {decodeAll : ByteString → Run (List (Option α))}

/-- The decoders without the three strategies. -/
theorem packedCorrect_with (h : Reader d value)
    (hall : ∀ bs, decodeAll bs = if bs.isEmpty then .right [] else decodeAllWith d bs) {bs : ByteString}
    (hlen : bs.length < 2 ^ 63) : PackedCorrect decodeAll d bs ↔ Complete bs := by
  refine packedCorrect_iff h hlen ?_ ?_
  · rw [hall]
    split_ifs
    · exact ⟨_, rfl⟩
    · exact decodeAllWith_right h hlen
  · rintro ps rfl hps
    rw [hall]
    split_ifs with hnil
    · rw [List.isEmpty_iff] at hnil
      have hle := length_pieces_le hps
      rw [hnil] at hle
      rw [List.length_eq_zero_iff.1 (Nat.le_zero.1 hle)]
      rfl
    · exact decodeAllWith_pieces h hlen hps

end

theorem decodeAllVarints_correct_iff {bs : ByteString} (hlen : bs.length < 2 ^ 63) :
    PackedCorrect decodeAllVarints getVarint bs ↔ Complete bs := by
  refine packedCorrect_iff reader_getVarint hlen (decodeAllVarints_right hlen) ?_
  rintro ps rfl hps
  exact decodeAllVarints_pieces hlen hps

theorem decodeAllSVarint32_correct_iff {bs : ByteString} (hlen : bs.length < 2 ^ 63) :
    PackedCorrect decodeAllSVarint32 getSVarint32 bs ↔ Complete bs :=
  packedCorrect_with (reader_getVarint.map fun w => unZigZag32 w.toUInt32) (fun _ => rfl) hlen

theorem decodeAllSVarint64_correct_iff {bs : ByteString} (hlen : bs.length < 2 ^ 63) :
    PackedCorrect decodeAllSVarint64 getSVarint64 bs ↔ Complete bs :=
  packedCorrect_with (reader_getVarint.map fun w => unZigZag64 w) (fun _ => rfl) hlen

/-- **Packed varints are decoded right exactly where every varint is
    complete.**  Elsewhere the loops end without an error. -/
theorem packed_correct_iff (bs : ByteString) (hlen : bs.length < 2 ^ 63) :
    (PackedCorrect decodeAllVarints getVarint bs ↔ Complete bs) ∧
      (PackedCorrect decodeAllSVarint32 getSVarint32 bs ↔ Complete bs) ∧
        (PackedCorrect decodeAllSVarint64 getSVarint64 bs ↔ Complete bs) :=
  ⟨decodeAllVarints_correct_iff hlen, decodeAllSVarint32_correct_iff hlen, decodeAllSVarint64_correct_iff hlen⟩

theorem packed_correct_small : PackedCorrect decodeAllVarints getVarint [0x96, 0x01] ∧
    PackedCorrect decodeAllSVarint32 getSVarint32 [0x96, 0x01] ∧ PackedCorrect decodeAllSVarint64 getSVarint64 [0x96, 0x01] := by
  have hpiece : Piece [0x96, 0x01] := ⟨[0x96], 0x01, rfl, by decide, by simp, by decide⟩
  have hcomplete : Complete [0x96, 0x01] := complete_iff.2 ⟨[[0x96, 0x01]], rfl, by simpa using hpiece⟩
  obtain ⟨h, h32, h64⟩ := packed_correct_iff [0x96, 0x01] (by decide)
  exact ⟨h.2 hcomplete, h32.2 hcomplete, h64.2 hcomplete⟩

/-- **A truncated varint alone is accepted**, with no values; and a vector that is
    allocated for a varint of eleven bytes keeps its cell unwritten. -/
theorem truncated_accepted : ¬PackedCorrect decodeAllVarints getVarint [0x80] ∧
    ¬PackedCorrect decodeAllSVarint32 getSVarint32 [0x80] ∧ ¬PackedCorrect decodeAllSVarint64 getSVarint64 [0x80] ∧
      decodeAllVarints (List.replicate 10 0xFF ++ [0x01]) = .right [none] := by
  have hno : ¬Complete [0x80] := fun h => absurd (h.1 0x80 rfl) (by decide)
  have hlen : ([0x80] : ByteString).length < 2 ^ 63 := by decide
  exact ⟨mt (decodeAllVarints_correct_iff hlen).1 hno, mt (decodeAllSVarint32_correct_iff hlen).1 hno,
    mt (decodeAllSVarint64_correct_iff hlen).1 hno, by decide⟩

end Wireform.Proto
