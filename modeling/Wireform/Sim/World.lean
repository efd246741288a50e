/-
  The deterministic simulator: its vocabulary (`Sim.Types`), the programs it
  runs (`Sim.Prog`) and the world they run in (`Sim.World`).

  A program is a tree of operations with continuations.  `Yield`, `Delay`,
  `Recv` and `Fork` are constructors of their own: the first three suspend the
  fiber, the fourth holds a program.  Every other operation is *inline* and is
  a `SimOp` with the type of its result.
-/
import Wireform.AssocMap
import Mathlib.Data.Prod.Lex
import Mathlib.Data.List.Lex
import Mathlib.Data.String.Basic

namespace Wireform.Sim

/-! ## Identifiers -/

abbrev NodeId := Int
abbrev FiberId := Int
abbrev MsgId := Int

/-- Virtual time in nanoseconds (`Word64`). -/
abbrev SimTime := UInt64

abbrev Seed := UInt64
abbrev SiteId := String
abbrev ByteString := List UInt8

/-- An observation fingerprint. -/
structure StateKey where
  val : UInt64
deriving DecidableEq

instance : LinearOrder StateKey :=
  LinearOrder.lift' (fun k => k.val.toNat) fun k k' h => by
    cases k
    cases k'
    exact congrArg StateKey.mk (UInt64.toNat_inj.1 h)

/-- A storage key, ordered by its bytes. -/
structure Key where
  bytes : ByteString
deriving DecidableEq

instance : LinearOrder Key :=
  LinearOrder.lift' (fun k => k.bytes.map UInt8.toNat) fun k k' h => by
    cases k
    cases k'
    exact congrArg Key.mk (List.map_injective_iff.2 (fun _ _ => UInt8.toNat_inj.1) h)

/-! ## Decisions, faults, events -/

/-- What the scheduler picks from. -/
inductive Decision where
  | schedNext (f : FiberId)
  | deliverMsg (m : MsgId)
  /-- the index of a fault in `availableFaults` -/
  | fireFault (i : Int)
deriving DecidableEq

abbrev DecisionPath := List Decision

/-- A concrete adversary action. -/
inductive FaultOp where
  | dropMessage (m : MsgId)
  | partition (a b : NodeId)
  | heal (a b : NodeId)
  | clog (a b : NodeId) (t : SimTime)
  | crashNode (n : NodeId)
  | rebootNode (n : NodeId)
  | pauseNode (n : NodeId) (t : SimTime)
  | clockSkew (n : NodeId) (off : Int)
  | corruptWrite (n : NodeId)
  | tearWrite (n : NodeId)
  | diskLatency (n : NodeId) (t : SimTime)
deriving DecidableEq

inductive FaultKind where
  | drop | partition | clog | crash | reboot | pause | skew | corrupt | tear | diskLatency
deriving DecidableEq

/-- Bounds on what faults a run may fire. -/
structure NemesisConfig where
  budget : Int
  kinds : List FaultKind
  quiesceAt : SimTime

inductive AssertKind where
  | always | alwaysOrUnreachable | sometimes | reachable | unreachable
deriving DecidableEq

inductive SimEvent where
  | step (f : FiberId)
  | send (src dst : NodeId) (m : MsgId)
  | recv (n : NodeId) (m : MsgId)
  | fault (op : FaultOp)
  | assert (s : SiteId) (k : AssertKind) (held : Bool)
  | cover (s : SiteId)
  | observe (k : StateKey)
  | log (n : NodeId) (t : String)
deriving DecidableEq

inductive FailReason where
  | assertViolated (s : SiteId) (k : AssertKind)
  | invariantBroken (t : String)
  | deadlock
  | panic (t : String)
deriving DecidableEq

/-! ## Programs -/

/-- What the simulator takes from outside: the types a program may keep in a
    variable with their type representations (`Typeable`, `Dynamic`), and the
    generator of the `splitmix` package. -/
structure Platform where
  Ty : Type
  El : Ty → Type
  [decTy : DecidableEq Ty]
  Gen : Type
  mkSMGen : UInt64 → Gen
  nextWord64 : Gen → UInt64 × Gen
  nextDouble : Gen → Float × Gen

attribute [instance] Platform.decTy

/-- A platform with a counter for a generator. -/
def counterPlatform : Platform where
  Ty := Unit
  El := fun _ => Nat
  Gen := UInt64
  mkSMGen := id
  nextWord64 := fun g => (g, g + 1)
  nextDouble := fun g => (0.5, g + 1)

variable {P : Platform}

/-- A handle into a node's heap; its type is at each use. -/
abbrev SimVar := Int

/-- A cell of a heap: a value with its type representation. -/
abbrev Dyn (P : Platform) := Σ τ : P.Ty, P.El τ

/-- The inline operations. -/
inductive SimOp (P : Platform) where
  | getTime
  | whoAmI
  | drawWord
  | send (dst : NodeId) (body : ByteString)
  | newVar (τ : P.Ty) (a : P.El τ)
  | readVar (τ : P.Ty) (v : SimVar)
  | writeVar (τ : P.Ty) (v : SimVar) (a : P.El τ)
  | modifyVar (τ σ : P.Ty) (v : SimVar) (f : P.El τ → P.El τ × P.El σ)
  | storeWrite (key : Key) (body : ByteString)
  | storeRead (key : Key)
  | fsync
  | cover (s : SiteId)
  | observe (ws : List UInt64)
  | buggify (s : SiteId) (p : Float)
  | assertOp (ak : AssertKind) (s : SiteId) (b : Bool)
  | logMsg (t : String)

/-- What an operation returns. -/
def SimOp.Result : SimOp P → Type
  | getTime => SimTime
  | whoAmI => NodeId
  | drawWord => UInt64
  | newVar _ _ => SimVar
  | readVar τ _ => P.El τ
  | modifyVar _ σ _ _ => P.El σ
  | storeRead _ => Option ByteString
  | buggify _ _ => Bool
  | send _ _ | writeVar _ _ _ | storeWrite _ _ | fsync | cover _ | observe _ | assertOp _ _ _ | logMsg _ => Unit

/-- `Prog ()`: every program the interpreter sees returns unit. -/
inductive Prog (P : Platform) where
  | pure
  | yield (k : Prog P)
  | delay (t : SimTime) (k : Prog P)
  | recv (k : NodeId × ByteString → Prog P)
  | fork (p : Prog P) (k : FiberId → Prog P)
  | bind (op : SimOp P) (k : op.Result → Prog P)

/-! ## The world -/

/-- How a fiber resumes when next scheduled or woken. -/
inductive Resume (P : Platform) where
  | ready (p : Prog P)
  | awaitRecv (k : NodeId × ByteString → Prog P)
  | awaitTimer (t : SimTime) (p : Prog P)

inductive FiberStatus where
  | runnable
  | blockedRecv
  | blockedTimer (t : SimTime)
  | dead
deriving DecidableEq

/-- One logical actor. -/
structure Fiber (P : Platform) where
  node : NodeId
  resume : Resume P
  status : FiberStatus

/-- A message in the network. -/
structure InFlight where
  src : NodeId
  dst : NodeId
  body : ByteString
  dueAt : SimTime
deriving DecidableEq

inductive LatencyDist where
  | fixed (t : SimTime)
  | uniformMs (lo hi : Int)
  | exponentialMs (mean : Float)

/-- Per directed link. -/
structure LinkPolicy where
  latency : LatencyDist
  drop : Float
  partitioned : Bool
  clogUntil : Option SimTime

def defaultLink (lat : LatencyDist) : LinkPolicy where
  latency := lat
  drop := 0
  partitioned := false
  clogUntil := none

/-- Per node: `durable` survives a crash, `volatile` and the heap do not. -/
structure NodeState (P : Platform) where
  alive : Bool
  skewNs : Int
  durable : AssocMap Key ByteString
  volatile : AssocMap Key ByteString
  heap : AssocMap SimVar (Dyn P)
  heapCtr : SimVar
  tearArmed : Bool
  corruptArmed : Bool
  pausedUntil : Option SimTime

def freshNode : NodeState P where
  alive := true
  skewNs := 0
  durable := []
  volatile := []
  heap := []
  heapCtr := 0
  tearArmed := false
  corruptArmed := false
  pausedUntil := none

abbrev Links := AssocMap (NodeId ×ₗ NodeId) LinkPolicy

/-- The whole simulated universe at one instant. -/
structure World (P : Platform) where
  clock : SimTime
  gen : P.Gen
  seqCtr : Int
  fibers : AssocMap FiberId (Fiber P)
  nextFiber : FiberId
  inFlight : AssocMap MsgId InFlight
  nextMsg : MsgId
  links : Links
  nodes : AssocMap NodeId (NodeState P)
  buggify : AssocMap SiteId Bool
  buggifyOverride : AssocMap SiteId Bool
  nemesis : NemesisConfig
  nodePrograms : AssocMap NodeId (Prog P)
  faultsFired : Int

end Wireform.Sim
