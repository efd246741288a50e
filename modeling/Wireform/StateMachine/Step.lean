/-
  The step algorithm (`StateMachine.Step`), with the event and registry types
  it uses (`StateMachine.Event`, `StateMachine.Registry`, `StateMachine.Machine`).

  * the entry recursion `addDescendants` follows the initial states, the regions
    and the history targets; it has a fuel, and no result means that the
    fuel has run out;
  * `microstep`: exits, transition actions, entries;
  * `quiesce`: eventless transitions and the internal queue;
  * `initializeMachine` (`initialize` there) and `step`.

  Actions run in a monad with a world and exceptions.  A `MicroTrace` records
  here, for the proofs, what its microstep started from.
-/
import Wireform.StateMachine.Runtime

namespace Wireform.StateMachine

/-! ## Types -/

/-- What a chart is written over: the context and the output, typed events and
    boxed values, and the world and the exceptions of the actions' monad. -/
structure Types where
  Ctx : Type
  Output : Type
  EventVal : Type
  Dynamic : Type
  World : Type
  Exn : Type
  eventName : EventVal → String

variable {T : Types}

inductive StepEvent (T : Types) where
  | external (e : T.EventVal)
  | done (n : NodeName) (d : Option T.Dynamic)
  | invokeDone (i : String) (v : T.Dynamic)
  | invokeError (i : String) (v : T.Dynamic)
  | timer (k : TimerKey)
  | init

def stepEventKey : StepEvent T → EventKey
  | .external ev => .named (T.eventName ev)
  | .done n _ => .done n
  | .invokeDone i _ => .invokeDone i
  | .invokeError i _ => .invokeError i
  | .timer k => .timer k
  | .init => .init

inductive SendTarget where
  | toParent
  | toChild (id : String)
  | toSelf
deriving DecidableEq

structure SendReq (T : Types) where
  target : SendTarget
  event : T.EventVal

structure ActionOutcome (T : Types) where
  ctx : T.Ctx
  raised : List T.EventVal
  sends : List (SendReq T)

/-- A chart with its registries; `label` renders an event for the trace. -/
structure ChartImpl (T : Types) where
  chart : RChart
  guards : String → Option (T.Ctx → StepEvent T → Bool)
  actions : String → Option (T.Ctx → StepEvent T → T.World → Except T.Exn (ActionOutcome T × T.World))
  outputs : String → Option (T.Ctx → StepEvent T → T.Dynamic)
  final : T.Ctx → T.Output
  label : StepEvent T → String

inductive Status (T : Types) where
  | running
  | finished (o : T.Output)

structure Machine (T : Types) where
  config : Config
  ctx : T.Ctx
  history : History
  status : Status T

/-- What one microstep did, and what it started from. -/
structure MicroTrace where
  event : String
  selected : List (NodeName × Nat)
  exited : List NodeName
  entered : List NodeName
  actions : List String
  config : Config
  history : History
  transitions : List (NodeName × RTrans)

structure Stepped (T : Types) where
  machine : Machine T
  effects : List EffectReq
  sends : List (SendReq T)
  trace : List MicroTrace

inductive StepFault where
  | eventlessLoop (atomics : List NodeName)
  | internalFault (t : String)
deriving DecidableEq

def maxMicrosteps : Nat := 10000

/-! ## The monad -/

/-- An exception of an action, or a look-up that fails. -/
inductive Failure (T : Types) where
  | thrown (e : T.Exn)
  | unknownNode (n : NodeName)

/-- Computations over the world; none where the entry recursion has no result. -/
abbrev M (T : Types) := StateT T.World (ExceptT (Failure T) Option)

def liftAction {α : Type} (f : T.World → Except T.Exn (α × T.World)) : M T α := fun w =>
  match f w with
  | .ok r => some (.ok r)
  | .error e => some (.error (.thrown e))

def liftOption {α : Type} (o : Option α) : M T α := fun w => o.map fun a => .ok (a, w)

def nodeOf (c : RChart) (n : NodeName) : M T RNode := fun w =>
  match lookupNode c n with
  | some nd => some (.ok (nd, w))
  | none => some (.error (.unknownNode n))

/-! ## Loop state -/

structure Loop (T : Types) where
  config : Config
  ctx : T.Ctx
  history : History
  effects : List EffectReq
  sends : List (SendReq T)
  trace : List MicroTrace
  /-- action names of the current microstep -/
  acted : List String
  queue : List (StepEvent T)
  rootDone : Bool

def Loop.start (ctx0 : T.Ctx) : Loop T where
  config := []
  ctx := ctx0
  history := []
  effects := []
  sends := []
  trace := []
  acted := []
  queue := []
  rootDone := false

def fromMachine (m : Machine T) : Loop T := { Loop.start m.ctx with config := m.config, history := m.history }

def addEffects (lp : Loop T) (es : List EffectReq) : Loop T := { lp with effects := lp.effects ++ es }

/-- Runs named actions in order. -/
def runActions (impl : ChartImpl T) (ev : StepEvent T) (names : List String) (loop : Loop T) : M T (Loop T) :=
  names.foldlM
    (fun lp nm =>
      match impl.actions nm with
      | none => pure lp
      | some act => do
        let out ← liftAction (act lp.ctx ev)
        pure { lp with
          ctx := out.ctx
          queue := lp.queue ++ out.raised.map .external
          sends := lp.sends ++ out.sends
          acted := lp.acted ++ [nm] })
    loop

/-! ## Exit and entry sets -/

section
variable (c : RChart) (hist : History)

def historyTargets (h : NodeName) (mdef : Option NodeName) : List NodeName :=
  match (hist.lookup h).filter fun stored => !stored.isEmpty with
  | some stored => stored
  | none =>
    match mdef with
    | some d => [d]
    | none =>
      match nodeKindOf c ((parentOf c h).getD rootName) with
      | some (.compound ini) => [ini]
      | some .parallel => regionsOf c ((parentOf c h).getD rootName)
      | _ => []

/-- What one target stands for. -/
def resolveTarget (n : NodeName) : List NodeName :=
  match nodeKindOf c n with
  | some (.history _ mdef) => historyTargets c hist n mdef
  | _ => [n]

/-- History pseudo-states replaced by their stored or default targets. -/
def effectiveTargets (ns : List NodeName) : List NodeName := ns.flatMap (resolveTarget c hist)

def domainFor (src : NodeName) (t : RTrans) : NodeName :=
  let targets := effectiveTargets c hist t.targets
  if t.internal && isCompound c src && targets.all fun tt => isDescendantOf c tt src then src
  else lcca c (src :: targets)

/-- The active states that a transition exits. -/
def exitSetFor (cfg : Config) (s : NodeName) (t : RTrans) : Config :=
  if t.targets.isEmpty then [] else cfg.filter fun x => isDescendantOf c x (domainFor c hist s t)

/-- Enters every region of a parallel state that has no entrant yet; `enter` is
    `addDescendants`. -/
def completeRegions (enter : NodeName → Config → Option Config) (p : NodeName) (acc : Config) : Option Config :=
  (regionsOf c p).foldlM
    (fun a r => if a.any fun x => decide (x = r) || isDescendantOf c x r then some a else enter r a) acc

/-- The ancestors of `n` strictly below `upTo`, with the regions of the parallel
    ones. -/
def addAncestors (enter : NodeName → Config → Option Config) (n upTo : NodeName) (acc0 : Config) : Option Config :=
  ((properAncestors c n).takeWhile (· ≠ upTo)).foldlM
    (fun acc anc =>
      if anc = rootName then some acc
      else if isParallel c anc then completeRegions c enter anc (OrderedSet.insert anc acc)
      else some (OrderedSet.insert anc acc))
    acc0

/-- A state with what is entered along with it. -/
def addDescendants : Nat → NodeName → Config → Option Config
  | 0, _, _ => none
  | fuel + 1, n, acc =>
    match nodeKindOf c n with
    | some (.history _ mdef) => do
      let ts := historyTargets c hist n mdef
      let parent := (parentOf c n).getD rootName
      let acc' ← ts.foldlM (fun a t => addDescendants fuel t a) acc
      ts.foldlM (fun a t => addAncestors c (addDescendants fuel) t parent a) acc'
    | some (.compound ini) => do
      let acc' ← addDescendants fuel ini (OrderedSet.insert n acc)
      addAncestors c (addDescendants fuel) ini n acc'
    | some .parallel => completeRegions c (addDescendants fuel) n (OrderedSet.insert n acc)
    | _ => some (OrderedSet.insert n acc)

/-- The states that a transition enters. -/
def entrySetFor (fuel : Nat) (src : NodeName) (t : RTrans) : Option Config :=
  if t.targets.isEmpty then some []
  else do
    let withTargets ← t.targets.foldlM (fun a n => addDescendants c hist fuel n a) []
    (effectiveTargets c hist t.targets).foldlM
      (fun acc s' => addAncestors c (addDescendants c hist fuel) s' (domainFor c hist src t) acc) withTargets

end

/-! ## Selection -/

def guardPasses (impl : ChartImpl T) (ctx : T.Ctx) (ev : StepEvent T) (t : RTrans) : Bool :=
  match t.guard with
  | none => true
  | some g =>
    match impl.guards g with
    | some f => f ctx ev
    | none => false

/-- The losers that `t1` preempts among the kept ones, or none if a kept one
    preempts it. -/
def judge (c : RChart) (exitOf : NodeName × RTrans → Config) (t1 : NodeName × RTrans) :
    List (NodeName × RTrans) → Option (List (NodeName × RTrans)) → Option (List (NodeName × RTrans))
  | [], acc => acc
  | t2 :: kept, acc =>
    judge c exitOf t1 kept <|
      match acc with
      | none => none
      | some ls =>
        if (exitOf t1).any fun x => (exitOf t2).contains x then
          if isDescendantOf c t1.1 t2.1 then some (t2 :: ls) else none
        else some ls

/-- Transitions whose exit sets intersect conflict; a descendant's preempts. -/
def removeConflicts (c : RChart) (cfg : Config) (hist : History) (ts : List (NodeName × RTrans)) : List (NodeName × RTrans) :=
  go [] ts
where
  go (kept : List (NodeName × RTrans)) : List (NodeName × RTrans) → List (NodeName × RTrans)
    | [] => kept.reverse
    | t1 :: rest =>
      match judge c (fun e => exitSetFor c hist cfg e.1 e.2) t1 kept (some []) with
      | none => go kept rest
      | some losers => go (t1 :: kept.filter fun t => !losers.contains t) rest

/-- `nubBy` on the source and the index. -/
def nubTrans (ts : List (NodeName × RTrans)) : List (NodeName × RTrans) :=
  (ts.foldl (fun seen e => if seen.any fun e' => e'.1 == e.1 && e'.2.index == e.2.index then seen else e :: seen) []).reverse

/-- For each active atomic state the first enabled transition on it or on its
    ancestors. -/
def selectWith (impl : ChartImpl T) (loop : Loop T) (enabled : NodeName → RTrans → Bool) : List (NodeName × RTrans) :=
  let c := impl.chart
  let firstMatch := fun s => ((transitionsOf c s).find? (enabled s)).map fun t => (s, t)
  let pick := fun a => (a :: properAncestors c a).findSome? firstMatch
  let atomics := sortByDocOrder c (atomicOf c loop.config)
  removeConflicts c loop.config loop.history (nubTrans (atomics.filterMap pick))

/-- The transitions that an event enables. -/
def selectFor (impl : ChartImpl T) (loop : Loop T) (ev : StepEvent T) : List (NodeName × RTrans) :=
  selectWith impl loop fun s t => triggerMatches s t (stepEventKey ev) && guardPasses impl loop.ctx ev t

/-- The enabled eventless transitions. -/
def selectEventless (impl : ChartImpl T) (loop : Loop T) (ev : StepEvent T) : List (NodeName × RTrans) :=
  selectWith impl loop fun _ t => decide (t.trigger = .always) && guardPasses impl loop.ctx ev t

/-! ## Microsteps -/

/-- What is recorded for a history child of an exited state. -/
def recorded (c : RChart) (cfg : Config) (exited : NodeName) : HistoryKind → OrderedSet NodeName
  | .shallow => OrderedSet.fromList ((childrenOf c exited).filter cfg.contains)
  | .deep => OrderedSet.fromList ((descendantsOf c exited).filter fun d => cfg.contains d && isAtomic c d)

/-- Records history for every history child of an exited state. -/
def recordHistory (c : RChart) (cfg : Config) (hist : History) (exited : NodeName) : History :=
  (childrenOf c exited).foldl
    (fun hi h =>
      match nodeKindOf c h with
      | some (.history k _) => AssocMap.insert h (recorded c cfg exited k) hi
      | _ => hi)
    hist

def inFinalState.go (c : RChart) (cfg : Config) : Nat → NodeName → Bool
  | 0, _ => false
  | k + 1, s =>
    match nodeKindOf c s with
    | some (.compound _) => (childrenOf c s).any fun n => isFinal c n && cfg.contains n
    | some .parallel => (regionsOf c s).all (inFinalState.go c cfg k)
    | _ => false

/-- All regions are in final states; the walk goes down the tree. -/
def inFinalState (c : RChart) (cfg : Config) (s : NodeName) : Bool := inFinalState.go c cfg (maxDepth c) s

/-- The payload of a final state. -/
def doneDataFor (impl : ChartImpl T) (ev : StepEvent T) (ctx : T.Ctx) (nd : RNode) : Option T.Dynamic := do
  let prod ← nd.doneData
  let f ← impl.outputs prod
  pure (f ctx ev)

def enterOne (impl : ChartImpl T) (ev : StepEvent T) (lp : Loop T) (n : NodeName) : M T (Loop T) := do
  let nd ← nodeOf impl.chart n
  let lp2 ← runActions impl ev nd.entry { lp with config := OrderedSet.insert n lp.config }
  pure (addEffects lp2 (armsFor impl.chart n))

/-- The done events of a final state. -/
def finalBookkeeping (impl : ChartImpl T) (ev : StepEvent T) (lp : Loop T) (n : NodeName) : M T (Loop T) :=
  if !isFinal impl.chart n then pure lp
  else do
    let nd ← nodeOf impl.chart n
    let parent := nd.parent
    if parent = rootName then pure { lp with rootDone := true }
    else do
      let lp' := { lp with queue := lp.queue ++ [.done parent (doneDataFor impl ev lp.ctx nd)] }
      let pd ← nodeOf impl.chart parent
      let gp := pd.parent
      if gp ≠ rootName && isParallel impl.chart gp && (regionsOf impl.chart gp).all (inFinalState impl.chart lp'.config) then
        pure { lp' with queue := lp'.queue ++ [.done gp none] }
      else pure lp'

def enterStates (impl : ChartImpl T) (ev : StepEvent T) (entryList : List NodeName) (loop0 : Loop T) : M T (Loop T) := do
  let loop1 ← entryList.foldlM (enterOne impl ev) loop0
  entryList.foldlM (finalBookkeeping impl ev) loop1

def exitOne (impl : ChartImpl T) (ev : StepEvent T) (lp : Loop T) (n : NodeName) : M T (Loop T) := do
  let nd ← nodeOf impl.chart n
  runActions impl ev nd.exit lp

/-- The states that the selected transitions exit. -/
def exitSetOf (c : RChart) (cfg : Config) (hist : History) (selected : List (NodeName × RTrans)) : Config :=
  OrderedSet.unions (selected.map fun e => exitSetFor c hist cfg e.1 e.2)

/-- The history after the exits of the selected transitions. -/
def historyAfter (c : RChart) (cfg : Config) (hist : History) (selected : List (NodeName × RTrans)) : History :=
  (sortByExitOrder c (exitSetOf c cfg hist selected)).foldl (recordHistory c cfg) hist

/-- The states that they enter. -/
def entrySetOf (c : RChart) (hist : History) (fuel : Nat) (selected : List (NodeName × RTrans)) : Option Config :=
  (selected.mapM fun e => entrySetFor c hist fuel e.1 e.2).map OrderedSet.unions

/-- One microstep: history, exits, transition actions, entries, trace. -/
def microstep (fuel : Nat) (impl : ChartImpl T) (ev : StepEvent T) (selected : List (NodeName × RTrans)) (loop0 : Loop T) :
    M T (Loop T) := do
  let c := impl.chart
  let exitSet := exitSetOf c loop0.config loop0.history selected
  let exitList := sortByExitOrder c exitSet
  let loop1 := addEffects { loop0 with history := historyAfter c loop0.config loop0.history selected }
    (exitList.flatMap (cancelsFor c))
  let loop2 ← exitList.foldlM (exitOne impl ev) loop1
  let loop3 := { loop2 with config := OrderedSet.difference loop2.config exitSet }
  let loop4 ← selected.foldlM (fun lp e => runActions impl ev e.2.actions lp) loop3
  let entrySet ← liftOption (entrySetOf c loop4.history fuel selected)
  let entryList := sortByDocOrder c entrySet
  let loop5 ← enterStates impl ev entryList loop4
  let trace := {
    event := impl.label ev
    selected := selected.map fun e => (e.1, e.2.index)
    exited := exitList
    entered := entryList
    actions := loop5.acted
    config := loop0.config
    history := loop0.history
    transitions := selected }
  pure { loop5 with trace := loop5.trace ++ [trace], acted := [] }

/-! ## Driving -/

/-- Eventless transitions and the internal queue, to quiescence; `left` is what
    is left of the microsteps. -/
def quiesce (fuel : Nat) (impl : ChartImpl T) : Nat → StepEvent T → Loop T → M T (Except StepFault (Loop T))
  | left, current, loop =>
    if loop.rootDone then pure (.ok loop)
    else
      match left with
      | 0 => pure (.error (.eventlessLoop (atomicOf impl.chart loop.config)))
      | left + 1 =>
        match selectEventless impl loop current with
        | t :: ts => do
          let loop' ← microstep fuel impl current (t :: ts) loop
          quiesce fuel impl left current loop'
        | [] =>
          match loop.queue with
          | [] => pure (.ok loop)
          | e :: rest => do
            let loop' := { loop with queue := rest }
            let loop'' ← microstep fuel impl e (selectFor impl loop' e) loop'
            quiesce fuel impl left e loop''

/-- On root completion, the output and the cancels of everything armed. -/
def finalize (impl : ChartImpl T) (loop : Loop T) : Stepped T :=
  if loop.rootDone then
    { machine := ⟨loop.config, loop.ctx, loop.history, .finished (impl.final loop.ctx)⟩
      effects := loop.effects ++ (loop.config.flatMap (cancelsFor impl.chart) ++
        impl.chart.rootInvokes.map fun iv => .cancelInvoke iv.id)
      sends := loop.sends
      trace := loop.trace }
  else
    { machine := ⟨loop.config, loop.ctx, loop.history, .running⟩
      effects := loop.effects
      sends := loop.sends
      trace := loop.trace }

/-- **Starts a machine.** -/
def initializeMachine (fuel : Nat) (impl : ChartImpl T) (ctx0 : T.Ctx) : M T (Except StepFault (Stepped T)) := do
  let c := impl.chart
  let l1 ← runActions impl .init c.rootEntry (Loop.start ctx0)
  let l2 := addEffects l1 (rootArms c)
  let entrySet ← liftOption (addDescendants c [] fuel c.initial [])
  let entryList := sortByDocOrder c entrySet
  let l3 ← enterStates impl .init entryList l2
  let trace := {
    event := impl.label .init
    selected := []
    exited := []
    entered := entryList
    actions := l3.acted
    config := []
    history := []
    transitions := [] }
  let r ← quiesce fuel impl (maxMicrosteps + 1) .init { l3 with trace := l3.trace ++ [trace], acted := [] }
  pure (r.map (finalize impl))

/-- **One event: a macrostep.**  A finished machine ignores it. -/
def step (fuel : Nat) (impl : ChartImpl T) (m : Machine T) (ev : StepEvent T) : M T (Except StepFault (Stepped T)) :=
  match m.status with
  | .finished _ => pure (.ok ⟨m, [], [], []⟩)
  | .running => do
    let loop0 := fromMachine m
    let loop1 ← microstep fuel impl ev (selectFor impl loop0 ev) loop0
    let r ← quiesce fuel impl (maxMicrosteps + 1) ev loop1
    pure (r.map (finalize impl))

end Wireform.StateMachine
