/-
  The engine of the simulator (`Sim.Entropy`, `Sim.Fault`, `Sim.Interp`).

  * `runReady`: a fiber runs through its inline operations until it blocks or
    ends; `perform` is one inline operation;
  * `applyFault`, `availableFaults`: the faults and their menu;
  * `step`, `runnable`: one decision, and the legal next decisions;
  * `advanceClock`: the clock jumps to the next wake-up;
  * `replay`: the reproduction of a run from its decisions.

  Reading a variable that is not there raises an error in the source.  Here
  such a read ends the step with a `VarError`.
-/
import Wireform.Sim.World

namespace Wireform.Sim

variable {P : Platform}

/-! ## Entropy -/

/-- A uniform integer in the inclusive range `[lo, hi]`. -/
def uniformR (range : Int × Int) (g : P.Gen) : Int × P.Gen :=
  if range.2 ≤ range.1 then (range.1, g)
  else
    let spanSz : UInt64 := UInt64.ofNat (range.2 - range.1).toNat + 1
    let (w, g') := P.nextWord64 g
    (range.1 + ((w % spanSz).toNat : Int), g')

/-- The SplitMix64 finalizer. -/
def finalize (z0 : UInt64) : UInt64 :=
  let z1 := (z0 ^^^ (z0 >>> 30)) * 0xBF58476D1CE4E5B9
  let z2 := (z1 ^^^ (z1 >>> 27)) * 0x94D049BB133111EB
  z2 ^^^ (z2 >>> 31)

/-- The fixed fingerprint mix. -/
def mixKey (xs : List UInt64) : StateKey :=
  ⟨finalize (xs.foldl (fun acc x => finalize (acc ^^^ x) + 0x9E3779B97F4A7C15) 0x9E3779B97F4A7C15)⟩

/-- `round`: to the nearest integer, halves to the even one. -/
def round (x : Float) : Int :=
  let n := x.floor.toInt64.toInt
  let d := x - x.floor
  if d < 0.5 then n else if 0.5 < d then n + 1 else if n % 2 = 0 then n else n + 1

def msToNs (ms : Int) : SimTime := UInt64.ofNat ms.toNat * 1000000

def sampleLatency (dist : LatencyDist) (g : P.Gen) : SimTime × P.Gen :=
  match dist with
  | .fixed t => (t, g)
  | .uniformMs lo hi =>
    let (ms, g') := uniformR (lo, hi) g
    (msToNs (max 0 ms), g')
  | .exponentialMs mean =>
    let (u, g') := P.nextDouble g
    -- guards the logarithm of zero
    let u' := if u ≤ 0 then 1e-12 else u
    (msToNs (max 0 (round (-u'.log * mean))), g')

/-! ## Nodes -/

def nodeOf (n : NodeId) (w : World P) : NodeState P := (w.nodes.lookup n).getD freshNode

def setNode (n : NodeId) (ns : NodeState P) (w : World P) : World P :=
  { w with nodes := AssocMap.insert n ns w.nodes }

/-! ## Faults -/

def clogWindowNs : SimTime := 100000000

def pauseWindowNs : SimTime := clogWindowNs

def skewOffsetNs : Int := 50000000

def addNs (t d : SimTime) : SimTime := t + d

/-- Changes a directed link, a healthy one if it is absent. -/
def setLink (a b : NodeId) (f : LinkPolicy → LinkPolicy) (links : Links) : Links :=
  AssocMap.insert (toLex (a, b)) (f ((AssocMap.lookup (toLex (a, b)) links).getD (defaultLink (.fixed 0)))) links

def modNode (n : NodeId) (f : NodeState P → NodeState P) (w : World P) : World P :=
  { w with nodes := AssocMap.adjust f n w.nodes }

/-- What a crash leaves of a node. -/
def clearVol (ns : NodeState P) : NodeState P :=
  { ns with alive := false, volatile := [], heap := [], heapCtr := 0, tearArmed := false, corruptArmed := false }

def killFiber (n : NodeId) (fb : Fiber P) : Fiber P :=
  if fb.node = n then { fb with status := .dead, resume := .ready .pure } else fb

/-- Drops the volatile state and kills the node's fibers. -/
def crashNode (n : NodeId) (w : World P) : World P :=
  { w with
    nodes := AssocMap.adjust clearVol n w.nodes
    fibers := w.fibers.map fun e => (e.1, killFiber n e.2) }

/-- Marks the node alive and starts its root program as a new fiber. -/
def rebootNode (n : NodeId) (w : World P) : World P :=
  let ns := { nodeOf n w with alive := true, pausedUntil := none }
  match w.nodePrograms.lookup n with
  | none => setNode n ns w
  | some prog =>
    { setNode n ns w with
      fibers := AssocMap.insert w.nextFiber ⟨n, .ready prog, .runnable⟩ w.fibers
      nextFiber := w.nextFiber + 1 }

def applyFault (op : FaultOp) (w : World P) : World P × SimEvent :=
  let w' := match op with
    | .dropMessage m => { w with inFlight := w.inFlight.filter fun e => e.1 ≠ m }
    | .partition a b => { w with links := setLink a b (fun lp => { lp with partitioned := true }) w.links }
    | .heal a b => { w with links := setLink a b (fun lp => { lp with partitioned := false }) w.links }
    | .clog a b t => { w with links := setLink a b (fun lp => { lp with clogUntil := some t }) w.links }
    | .crashNode n => crashNode n w
    | .rebootNode n => rebootNode n w
    | .pauseNode n t => modNode n (fun ns => { ns with pausedUntil := some t }) w
    | .clockSkew n off => modNode n (fun ns => { ns with skewNs := off }) w
    | .corruptWrite n => modNode n (fun ns => { ns with corruptArmed := true }) w
    | .tearWrite n => modNode n (fun ns => { ns with tearArmed := true }) w
    | .diskLatency n t => modNode n (fun ns => { ns with pausedUntil := some t }) w
  (w', .fault op)

def aliveNodes (w : World P) : List NodeId := (w.nodes.filter fun e => e.2.alive).map Prod.fst

def deadNodes (w : World P) : List NodeId := (w.nodes.filter fun e => !e.2.alive).map Prod.fst

/-- The ordered pairs of different live nodes. -/
def orderedPairs (w : World P) : List (NodeId × NodeId) :=
  (aliveNodes w).flatMap fun a => ((aliveNodes w).filter fun b => a ≠ b).map fun b => (a, b)

def isPartitioned (w : World P) (e : NodeId × NodeId) : Bool :=
  ((w.links.lookup (toLex e)).map LinkPolicy.partitioned).getD false

def isClogged (w : World P) (e : NodeId × NodeId) : Bool :=
  match w.links.lookup (toLex e) with
  | some lp => (lp.clogUntil.map fun t => decide (w.clock < t)).getD false
  | none => false

/-- A test of a node, true of a node that is not there. -/
def nodeTest (w : World P) (f : NodeState P → Bool) (n : NodeId) : Bool :=
  ((w.nodes.lookup n).map f).getD true

def notPaused (w : World P) : NodeId → Bool :=
  nodeTest w fun ns => (ns.pausedUntil.map fun t => decide (t ≤ w.clock)).getD true

def forKind (w : World P) : FaultKind → List FaultOp
  | .drop => w.inFlight.map fun e => .dropMessage e.1
  | .partition => ((orderedPairs w).filter fun e => !isPartitioned w e).map fun e => .partition e.1 e.2
  | .clog => ((orderedPairs w).filter fun e => !isClogged w e).map fun e => .clog e.1 e.2 (addNs w.clock clogWindowNs)
  | .crash => (aliveNodes w).map .crashNode
  | .reboot => (deadNodes w).map .rebootNode
  | .pause => ((aliveNodes w).filter (notPaused w)).map fun n => .pauseNode n (addNs w.clock pauseWindowNs)
  | .skew => ((aliveNodes w).filter (nodeTest w fun ns => ns.skewNs == 0)).map fun n => .clockSkew n skewOffsetNs
  | .corrupt => ((aliveNodes w).filter (nodeTest w fun ns => !ns.corruptArmed)).map .corruptWrite
  | .tear => ((aliveNodes w).filter (nodeTest w fun ns => !ns.tearArmed)).map .tearWrite
  | .diskLatency => ((aliveNodes w).filter (notPaused w)).map fun n => .diskLatency n (addNs w.clock pauseWindowNs)

/-- The menu of faults at this world. -/
def availableFaults (nc : NemesisConfig) (w : World P) : List FaultOp :=
  if nc.quiesceAt ≤ w.clock then []
  else if nc.budget ≤ w.faultsFired then []
  else nc.kinds.flatMap (forKind w)

/-! ## Inline operations -/

inductive VarError where
  | dangling
  | mismatch
deriving DecidableEq

/-- The clock as a node perceives it. -/
def skewedClock (n : NodeId) (w : World P) : SimTime :=
  let skew := ((w.nodes.lookup n).map NodeState.skewNs).getD 0
  UInt64.ofNat (max 0 ((w.clock.toNat : Int) + skew)).toNat

def spawn (node : NodeId) (p : Prog P) (w : World P) : FiberId × World P :=
  (w.nextFiber,
    { w with
      fibers := AssocMap.insert w.nextFiber ⟨node, .ready p, .runnable⟩ w.fibers
      nextFiber := w.nextFiber + 1 })

/-- The policy of a link; a link that is not configured is healthy and has no
    latency. -/
def linkPolicy (src dst : NodeId) (w : World P) : LinkPolicy :=
  (w.links.lookup (toLex (src, dst))).getD (defaultLink (.fixed 0))

def doSend (src dst : NodeId) (body : ByteString) (w : World P) : World P × SimEvent :=
  let lp := linkPolicy src dst w
  let (dropRoll, g1) := P.nextDouble w.gen
  let (lat, g2) := sampleLatency lp.latency g1
  let mid := w.nextMsg
  let base := { w with gen := g2, nextMsg := mid + 1 }
  let w' :=
    if dropRoll < lp.drop then base -- lost in transit; it has used up an id
    else { base with inFlight := AssocMap.insert mid ⟨src, dst, body, w.clock + lat⟩ base.inFlight }
  (w', .send src dst mid)

def doNewVar (node : NodeId) (τ : P.Ty) (a : P.El τ) (w : World P) : SimVar × World P :=
  let ns := nodeOf node w
  let i := ns.heapCtr
  (i, setNode node { ns with heap := AssocMap.insert i ⟨τ, a⟩ ns.heap, heapCtr := i + 1 } w)

/-- `fromDyn`: the value of a cell at a type. -/
def fromDyn (τ : P.Ty) (d : Dyn P) : Except VarError (P.El τ) :=
  if h : d.1 = τ then .ok (h ▸ d.2) else .error .mismatch

def doReadVar (node : NodeId) (τ : P.Ty) (v : SimVar) (w : World P) : Except VarError (P.El τ) :=
  match (nodeOf node w).heap.lookup v with
  | some dyn => fromDyn τ dyn
  | none => .error .dangling

def doWriteVar (node : NodeId) (τ : P.Ty) (v : SimVar) (a : P.El τ) (w : World P) : World P :=
  let ns := nodeOf node w
  setNode node { ns with heap := AssocMap.insert v ⟨τ, a⟩ ns.heap } w

/-- One bit of a byte string flipped. -/
def flipBitBS (bs : ByteString) (bit : Int) : ByteString :=
  if bs.isEmpty then bs
  else
    let bIdx := (bit % ((bs.length : Int) * 8)).toNat
    bs.modify (bIdx / 8) fun old => old ^^^ (1 <<< UInt8.ofNat (bIdx % 8))

/-- Durable by default; an armed tear sends the write to the volatile store, an
    armed corruption flips a bit of it. -/
def doStoreWrite (node : NodeId) (key : Key) (body : ByteString) (w : World P) : World P :=
  let ns := nodeOf node w
  if ns.tearArmed then
    setNode node { ns with volatile := AssocMap.insert key body ns.volatile, tearArmed := false } w
  else if ns.corruptArmed then
    let (bitW, g') := P.nextWord64 w.gen
    let body' := flipBitBS body bitW.toInt64.toInt
    setNode node { ns with durable := AssocMap.insert key body' ns.durable, corruptArmed := false } { w with gen := g' }
  else setNode node { ns with durable := AssocMap.insert key body ns.durable } w

def doStoreRead (node : NodeId) (key : Key) (w : World P) : Option ByteString :=
  let ns := nodeOf node w
  (ns.volatile.lookup key).or (ns.durable.lookup key)

/-- The pending volatile writes become durable. -/
def doFsync (node : NodeId) (w : World P) : World P :=
  let ns := nodeOf node w
  let durable := ns.volatile.foldl (fun m e => AssocMap.insert e.1 e.2 m) ns.durable
  setNode node { ns with durable, volatile := [] } w

def doBuggify (s : SiteId) (p : Float) (w : World P) : Bool × World P :=
  match w.buggifyOverride.lookup s with
  | some b => (b, w)
  | none =>
    match w.buggify.lookup s with
    | some b => (b, w)
    | none =>
      let (d, g') := P.nextDouble w.gen
      let b := decide (d < p)
      (b, { w with gen := g', buggify := AssocMap.insert s b w.buggify })

/-- One inline operation: its result, the world after it and its events (a
    branch of the loop of `runReady` that goes on with the continuation). -/
def perform (node : NodeId) (w : World P) : (op : SimOp P) → Except VarError (op.Result × World P × List SimEvent)
  | .getTime => .ok (skewedClock node w, w, [])
  | .whoAmI => .ok (node, w, [])
  | .drawWord =>
    let (x, g') := P.nextWord64 w.gen
    .ok (x, { w with gen := g' }, [])
  | .send dst body =>
    let (w', ev) := doSend node dst body w
    .ok ((), w', [ev])
  | .newVar τ a =>
    let (v, w') := doNewVar node τ a w
    .ok (v, w', [])
  | .readVar τ v => (doReadVar node τ v w).map fun a => (a, w, [])
  | .writeVar τ v a => .ok ((), doWriteVar node τ v a w, [])
  | .modifyVar τ _ v f =>
    (doReadVar node τ v w).map fun a =>
      let (a', b) := f a
      (b, doWriteVar node τ v a' w, [])
  | .storeWrite key body => .ok ((), doStoreWrite node key body w, [])
  | .storeRead key => .ok (doStoreRead node key w, w, [])
  | .fsync => .ok ((), doFsync node w, [])
  | .cover s => .ok ((), w, [.cover s])
  | .observe ws => .ok ((), w, [.observe (mixKey ws)])
  | .buggify s p =>
    let (b, w') := doBuggify s p w
    .ok (b, w', [])
  | .assertOp ak s b => .ok ((), w, [.assert s ak b])
  | .logMsg t => .ok ((), w, [.log node t])

/-! ## Fibers -/

/-- How a fiber's step ends. -/
inductive StepOut (P : Platform) where
  | done
  | recv (k : NodeId × ByteString → Prog P)
  | timer (t : SimTime) (p : Prog P)
  | yield (p : Prog P)

/-- The loop of `runReady`; the events are kept in reverse. -/
def runReady.goP (node : NodeId) :
    List SimEvent → World P → Prog P → Except VarError (World P × List SimEvent × StepOut P)
  | evAcc, w, .pure => .ok (w, evAcc.reverse, .done)
  | evAcc, w, .yield k => .ok (w, evAcc.reverse, .yield k)
  | evAcc, w, .delay t k => .ok (w, evAcc.reverse, .timer (w.clock + t) k)
  | evAcc, w, .recv k => .ok (w, evAcc.reverse, .recv k)
  | evAcc, w, .fork p k => runReady.goP node evAcc (spawn node p w).2 (k (spawn node p w).1)
  | evAcc, w, .bind op k =>
    match perform node w op with
    | .error e => .error e
    | .ok (r, w', evs) => runReady.goP node (evs.reverse ++ evAcc) w' (k r)

/-- Runs a ready fiber until it hits a yield point. -/
def runReady (node : NodeId) (w : World P) (prog : Prog P) : Except VarError (World P × List SimEvent × StepOut P) :=
  runReady.goP node [] w prog

/-! ## Decisions -/

structure StepResult (P : Platform) where
  world : World P
  events : List SimEvent

/-- A fiber after its step. -/
def Fiber.after (fb : Fiber P) : StepOut P → Fiber P
  | .done => { fb with status := .dead, resume := .ready .pure }
  | .yield p => { fb with status := .runnable, resume := .ready p }
  | .recv k => { fb with status := .blockedRecv, resume := .awaitRecv k }
  | .timer t p => { fb with status := .blockedTimer t, resume := .awaitTimer t p }

/-- The first fiber of a node that is blocked in `Recv`. -/
def pickRecvFiber (dst : NodeId) (w : World P) : Option (FiberId × (NodeId × ByteString → Prog P)) :=
  w.fibers.findSome? fun e =>
    if e.2.node = dst ∧ e.2.status = .blockedRecv then
      match e.2.resume with
      | .awaitRecv k => some (e.1, k)
      | .ready _ | .awaitTimer _ _ => none
    else none

/-- Runs one decision against the world. -/
def step (w : World P) : Decision → Except VarError (StepResult P)
  | .schedNext f =>
    match w.fibers.lookup f with
    | none => .ok ⟨w, []⟩
    | some fb =>
      if fb.status = .runnable then
        match fb.resume with
        | .ready prog =>
          match runReady fb.node w prog with
          | .error e => .error e
          | .ok (w', evs, out) =>
            .ok ⟨{ w' with fibers := AssocMap.insert f (fb.after out) w'.fibers, seqCtr := w'.seqCtr + 1 }, .step f :: evs⟩
        | .awaitRecv _ | .awaitTimer _ _ => .ok ⟨w, []⟩
      else .ok ⟨w, []⟩
  | .deliverMsg m =>
    match w.inFlight.lookup m with
    | none => .ok ⟨w, []⟩
    | some inf =>
      if (nodeOf inf.dst w).alive = false then
        .ok ⟨{ w with inFlight := w.inFlight.filter fun e => e.1 ≠ m }, []⟩ -- dropped at a dead destination
      else
        match pickRecvFiber inf.dst w with
        | none => .ok ⟨w, []⟩ -- nobody waits: it stays in flight
        | some (fid, k) =>
          .ok ⟨{ w with
            inFlight := w.inFlight.filter fun e => e.1 ≠ m
            fibers := AssocMap.insert fid ⟨inf.dst, .ready (k (inf.src, inf.body)), .runnable⟩ w.fibers
            seqCtr := w.seqCtr + 1 }, [.recv inf.dst m]⟩
  | .fireFault i =>
    match if i < 0 then none else (availableFaults w.nemesis w)[i.toNat]? with
    | none => .ok ⟨w, []⟩
    | some op =>
      let (w', ev) := applyFault op w
      .ok ⟨{ w' with faultsFired := w.faultsFired + 1, seqCtr := w.seqCtr + 1 }, [ev]⟩

/-- Alive and not paused. -/
def nodeUp (n : NodeId) (w : World P) : Bool :=
  match w.nodes.lookup n with
  | none => false
  | some ns => ns.alive && (ns.pausedUntil.map fun t => decide (t ≤ w.clock)).getD true

/-- Neither partitioned nor clogged. -/
def linkLive (a b : NodeId) (w : World P) : Bool :=
  match w.links.lookup (toLex (a, b)) with
  | none => true
  | some lp => !lp.partitioned && (lp.clogUntil.map fun t => decide (t ≤ w.clock)).getD true

/-- Some fiber of the node is blocked in `Recv`. -/
def blockedRecvOn (n : NodeId) (w : World P) : Bool :=
  w.fibers.any fun e => decide (e.2.node = n) && decide (e.2.status = .blockedRecv)

def deliverable (m : MsgId) (w : World P) : Bool :=
  match w.inFlight.lookup m with
  | none => false
  | some inf =>
    decide (inf.dueAt ≤ w.clock) && linkLive inf.src inf.dst w && nodeUp inf.dst w && blockedRecvOn inf.dst w

/-- The legal next decisions: runnable fibers, deliverable messages, faults. -/
def runnable (w : World P) : List Decision :=
  ((w.fibers.filter fun e => decide (e.2.status = .runnable) && nodeUp e.2.node w).map fun e => .schedNext e.1) ++
  ((w.inFlight.filter fun e => deliverable e.1 w).map fun e => .deliverMsg e.1) ++
  ((List.range (availableFaults w.nemesis w).length).map fun i => .fireFault i)

/-! ## Time -/

def FiberStatus.wakeTime : FiberStatus → Option SimTime
  | .blockedTimer t => some t
  | .runnable | .blockedRecv | .dead => none

/-- A timer or a pause is due. -/
def dueNow (w : World P) : Bool :=
  (w.fibers.any fun e => (e.2.status.wakeTime.map fun t => decide (t ≤ w.clock)).getD false) ||
  (w.nodes.any fun e => (e.2.pausedUntil.map fun t => decide (t ≤ w.clock)).getD false)

/-- The times at which something may happen. -/
def wakeTimes (w : World P) : List SimTime :=
  w.fibers.filterMap (fun e => e.2.status.wakeTime) ++ w.nodes.filterMap (fun e => e.2.pausedUntil) ++
  w.links.filterMap (fun e => e.2.clogUntil) ++ w.inFlight.map (fun e => e.2.dueAt)

/-- The earliest of them strictly in the future. -/
def earliestFuture (w : World P) : Option SimTime :=
  ((wakeTimes w).filter fun t => w.clock < t).min?

def canAdvanceTime (w : World P) : Bool := dueNow w || (earliestFuture w).isSome

def wakeFib (clk : SimTime) (fb : Fiber P) : Fiber P :=
  match fb.status, fb.resume with
  | .blockedTimer t, .awaitTimer _ p =>
    if t ≤ clk then { fb with status := .runnable, resume := .ready p } else fb
  | _, _ => fb

def unpause (clk : SimTime) (ns : NodeState P) : NodeState P :=
  match ns.pausedUntil with
  | some t => if t ≤ clk then { ns with pausedUntil := none } else ns
  | none => ns

/-- Wakes the timers whose time has come and ends the pauses that are over. -/
def wakeDue (w : World P) : World P :=
  { w with
    fibers := w.fibers.map fun e => (e.1, wakeFib w.clock e.2)
    nodes := w.nodes.map fun e => (e.1, unpause w.clock e.2) }

/-- Jumps to the next wake-up, or only wakes what is due already. -/
def advanceClock (w : World P) : World P :=
  if dueNow w then wakeDue w
  else
    match earliestFuture w with
    | none => w
    | some t => wakeDue { w with clock := t }

/-- A message in flight to a live node with a blocked receiver. -/
def deadlocked (w : World P) : Bool :=
  w.inFlight.any fun e =>
    ((w.nodes.lookup e.2.dst).map NodeState.alive).getD false && blockedRecvOn e.2.dst w

/-! ## Scenarios -/

structure Scenario (P : Platform) where
  nemesis : NemesisConfig
  links : Links
  nodes : List (NodeId × Prog P)
  invariant : World P → Bool

/-- What it takes to reproduce a run. -/
structure RunInput where
  seed : Seed
  buggify : AssocMap SiteId Bool
  path : DecisionPath

/-- One root fiber per entry of the scenario, one node state per node it
    mentions. -/
def initWorld (seed : Seed) (scen : Scenario P) : World P where
  clock := 0
  gen := P.mkSMGen seed
  seqCtr := 0
  fibers := AssocMap.fromList (scen.nodes.zipIdx.map fun e => ((e.2 : Int), ⟨e.1.1, .ready e.1.2, .runnable⟩))
  nextFiber := scen.nodes.length
  inFlight := []
  nextMsg := 0
  links := scen.links
  nodes := AssocMap.fromList
    ((scen.nodes.map Prod.fst ++ scen.links.flatMap fun e => [(ofLex e.1).1, (ofLex e.1).2]).map fun n => (n, freshNode))
  buggify := []
  buggifyOverride := []
  nemesis := scen.nemesis
  nodePrograms := AssocMap.fromList scen.nodes
  faultsFired := 0

/-! ## Replay -/

/-- The failure an event stands for. -/
def eventFail : SimEvent → Option FailReason
  | .assert s .always false => some (.assertViolated s .always)
  | .assert s .alwaysOrUnreachable false => some (.assertViolated s .alwaysOrUnreachable)
  | .assert s .unreachable true => some (.assertViolated s .unreachable)
  | _ => none

def firstAssertFail (evs : List SimEvent) : Option FailReason := (evs.filterMap eventFail).head?

def Decision.isFault : Decision → Bool
  | .fireFault _ => true
  | .schedNext _ | .deliverMsg _ => false

/-- What a driver does to a world: it takes a decision or advances the clock. -/
inductive Move where
  | decide (d : Decision)
  | tick
deriving DecidableEq

/-- The outcome of a run.  `moves` is a record for the proofs: what the driver
    did, in order. -/
structure RunResult (P : Platform) where
  final : World P
  events : List SimEvent
  fail : Option FailReason
  moves : List Move

/-- The cap on the steps of a drive. -/
def maxDriveSteps : Nat := 200000

/-- The first decision to take without a fault. -/
def progress (w : World P) : Option Decision := ((runnable w).filter fun d => !d.isFault).head?

/-- Nothing to wait for, and the entry does not resolve: it is skipped. -/
def stale {ι : Type} (resolve : World P → ι → Option Decision) (w : World P) (x : ι) : Bool :=
  (resolve w x).isNone && !canAdvanceTime w

/-- The drive loop, which `replay` and the oracle of the minimiser share: take
    the entries of a path as they resolve to decisions, advance the clock for an
    entry that does not resolve yet, and after the path go on with the first
    decision that is no fault.  An entry that is skipped costs no fuel. -/
def driveLoop {ι : Type} (inv : World P → Bool) (resolve : World P → ι → Option Decision) :
    Nat → World P → List ι → List SimEvent → List Move → Except VarError (RunResult P)
  | 0, w, _, acc, ms => .ok ⟨w, acc.reverse, none, ms.reverse⟩
  | fuel + 1, w, path, acc, ms =>
    let advance := fun (d : Decision) (rest : List ι) =>
      match step w d with
      | .error e => .error e
      | .ok r =>
        match firstAssertFail r.events with
        | some reason => .ok ⟨r.world, (r.events.reverse ++ acc).reverse, some reason, (.decide d :: ms).reverse⟩
        | none => driveLoop inv resolve fuel r.world rest (r.events.reverse ++ acc) (.decide d :: ms)
    if !inv w then .ok ⟨w, acc.reverse, some (.invariantBroken "scenario invariant"), ms.reverse⟩
    else
      match path.dropWhile (stale resolve w) with
      | x :: rest =>
        match resolve w x with
        | some d => advance d rest
        | none => driveLoop inv resolve fuel (advanceClock w) (x :: rest) acc (.tick :: ms)
      | [] =>
        match progress w with
        | some d => advance d []
        | none =>
          if canAdvanceTime w then driveLoop inv resolve fuel (advanceClock w) [] acc (.tick :: ms)
          else .ok ⟨w, acc.reverse, if deadlocked w then some .deadlock else none, ms.reverse⟩

attribute [grind =] driveLoop

/-- The world a run starts in. -/
def startWorld (seed : Seed) (buggify : AssocMap SiteId Bool) (scen : Scenario P) : World P :=
  { initWorld seed scen with buggifyOverride := buggify }

/-- A recorded decision applies when it is legal. -/
def resolveDecision (w : World P) (d : Decision) : Option Decision :=
  if (runnable w).contains d then some d else none

/-- **Reproduces a run.** -/
def replay (scen : Scenario P) (ri : RunInput) : Except VarError (RunResult P) :=
  driveLoop scen.invariant resolveDecision maxDriveSteps (startWorld ri.seed ri.buggify scen) ri.path [] []

end Wireform.Sim
