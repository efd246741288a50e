import Wireform.Proto.Framing
import Wireform.Proto.DynamicSchema
import Wireform.Proto.CompatSound
import Wireform.Http2.Hpack.Safety
import Wireform.Kafka.Partitioner
import Wireform.Http2.HeaderSettings
import Wireform.Http2.Server.Windows
import Wireform.Http2.Server.Credit
import Wireform.Kafka.Sender.HandOver
import Wireform.Kafka.Streams.Rebalance
import Wireform.Kafka.Mock.ReadCommitted
import Wireform.Kafka.Transaction.Registration
import Wireform.Kafka.Streams.Delivery
import Wireform.Kafka.Assignor.Balance
import Wireform.Kafka.Streams.JoinSemantics
import Wireform.Kafka.Streams.Sinks.ExactlyOnce
import Wireform.Lattice.Coalesce.Answers
import Wireform.Lattice.Live.Converge
import Wireform.Parquet.HybridRoundTrip
import Wireform.Parquet.Predicate.Exact
import Wireform.Sim.Storage
import Wireform.Sim.Minimise
import Wireform.StateMachine.Stale
import Wireform.StateMachine.Returns
import Wireform.StateMachine.Domain
import Wireform.Iceberg.Conserve
import Wireform.Delta.Restart
import Wireform.Iceberg.Consistent
import Wireform.Iceberg.ScanExact
import Wireform.Avro.Evolve
import Wireform.Http2.Hpack.TableHistory
import Wireform.Http2.HeaderBlocks
import Wireform.Proto.DynamicEncode
import Wireform.Utf8Valid
import Wireform.Base64.Decode
import Wireform.Kafka.Wire.Codec
import Wireform.Parser.Isolate
import Wireform.Kafka.BatchSplitting
import Wireform.Kafka.Streams.Watermark
import Wireform.Kafka.Streams.SelfJoin
import Wireform.Kafka.Streams.Transactional
import Wireform.Kafka.Streams.SuccessivePaths
import Wireform.Lattice.Client.Store
import Wireform.Parquet.Decimal
import Wireform.Parquet.BloomFilterPaths
import Wireform.Lattice.Digest
import Wireform.Lattice.Live.Admission
import Wireform.Lattice.Backend.Memory
import Wireform.StateMachine.Debug
import Wireform.Iceberg.BoundTrunc
import Wireform.Iceberg.Incremental
import Wireform.Iceberg.DeletionExact
import Wireform.Cel.Coherent
import Wireform.Iceberg.Transform
