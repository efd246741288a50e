/-
  Batches of records (`Kafka.Client.Internal.BatchAccumulator`).
-/
import Mathlib.Data.String.Basic
import Mathlib.Data.Prod.Lex

namespace Wireform.Kafka

structure TopicPartition where
  tpTopic : String
  tpPartition : Int32
  deriving DecidableEq, Repr

/-- Partitions are ordered by topic first. -/
def TopicPartition.key (tp : TopicPartition) : String ×ₗ Int := toLex (tp.tpTopic, tp.tpPartition.toInt)

/-- A callback, by its number. -/
abbrev RecordCallback := Nat

/-- A sealed batch, with the producer id, epoch and first sequence number it was
    stamped with. -/
structure ProducerBatch where
  batchTopicPartition : TopicPartition
  batchCreateTime : Int
  batchCallbacks : List RecordCallback
  batchAttempts : Nat
  batchProducerId : Int64
  batchProducerEpoch : Int16
  batchBaseSequence : Int32
  deriving DecidableEq, Repr

end Wireform.Kafka
