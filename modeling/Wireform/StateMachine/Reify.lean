/-
  Chart specifications (`StateMachine.Spec`), their checks
  (`StateMachine.Validate`) and their demotion to an `RChart`
  (`StateMachine.Reify`).

  In the source a specification is a type, whose names are constructors with
  distinct wire names, none of them `"#root"`.  Here it is a value over the wire
  names.

  * `assemble`: parents, preorder positions, depths and flattened features;
  * `ValidChart`: the checks, by the numbers of the source.
-/
import Wireform.StateMachine.Runtime

namespace Wireform.StateMachine

/-! ## Specifications -/

inductive TriggerSpec where
  | on (e : String)
  | wildcard
  | always
  | after (ms : Nat)
  | done (s : NodeName)
  /-- placeholders inside an invoke's lists -/
  | invokeDone
  | invokeError
deriving DecidableEq

structure TransSpec where
  trigger : TriggerSpec
  guard : Option String
  targets : List NodeName
  actions : List String
  internal : Bool
deriving DecidableEq

/-- The handler lists of an invoke hold transitions: the check that they hold
    nothing else is in the type. -/
inductive Feature where
  | trans (t : TransSpec)
  | entry (as : List String)
  | exit (as : List String)
  | invoke (id src : String) (onDone onError : List TransSpec)
deriving DecidableEq

inductive NodeSpec where
  | atomic (n : NodeName) (fs : List Feature)
  | compound (n ini : NodeName) (children : List NodeSpec) (fs : List Feature)
  | parallel (n : NodeName) (regions : List NodeSpec) (fs : List Feature)
  | final (n : NodeName) (out : Option String)
  | history (n : NodeName) (k : HistoryKind) (default : Option NodeName)

structure ChartSpec where
  name : String
  /-- event names with their payload types -/
  events : List (String × String)
  states : List NodeSpec
  initial : NodeName
  rootFeatures : List Feature

namespace NodeSpec

def name : NodeSpec → NodeName
  | atomic n _ | compound n _ _ _ | parallel n _ _ | final n _ | history n _ _ => n

def children : NodeSpec → List NodeSpec
  | compound _ _ cs _ | parallel _ cs _ => cs
  | atomic _ _ | final _ _ | history _ _ _ => []

def features : NodeSpec → List Feature
  | atomic _ fs | compound _ _ _ fs | parallel _ _ fs => fs
  | final _ _ | history _ _ _ => []

def kind : NodeSpec → RNodeKind
  | atomic _ _ => .atomic
  | compound _ ini _ _ => .compound ini
  | parallel _ _ _ => .parallel
  | final _ _ => .final
  | history _ k d => .history k d

def doneData : NodeSpec → Option String
  | final _ out => out
  | atomic _ _ | compound _ _ _ _ | parallel _ _ _ | history _ _ _ => none

end NodeSpec

mutual

/-- A node and all below it, in preorder. -/
def nodeNodes : NodeSpec → List NodeSpec
  | .compound n ini cs fs => .compound n ini cs fs :: allNodes cs
  | .parallel n cs fs => .parallel n cs fs :: allNodes cs
  | .atomic n fs => [.atomic n fs]
  | .final n out => [.final n out]
  | .history n k d => [.history n k d]

/-- Every node in preorder. -/
def allNodes : List NodeSpec → List NodeSpec
  | [] => []
  | n :: ns => nodeNodes n ++ allNodes ns

end

/-! ## Demotion -/

/-- Resolves a placeholder trigger to the enclosing invocation.  (Outside an
    invoke a placeholder is an error in the source, which check 9 excludes.) -/
def finishTrans (invoke : Option String) (t : TransSpec) : RTrans where
  trigger :=
    match t.trigger with
    | .on e => .on e
    | .wildcard => .wildcard
    | .always => .always
    | .after ms => .after ms
    | .done s => .done s
    | .invokeDone => .invokeDone (invoke.getD "")
    | .invokeError => .invokeError (invoke.getD "")
  guard := t.guard
  targets := t.targets
  actions := t.actions
  internal := t.internal
  index := 0

structure Flattened where
  transitions : List RTrans
  invokes : List RInvoke
  entry : List String
  exit : List String

/-- What a feature adds to each of the lists. -/
def Feature.flat : Feature → Flattened
  | trans t => ⟨[finishTrans none t], [], [], []⟩
  | entry as => ⟨[], [], as, []⟩
  | exit as => ⟨[], [], [], as⟩
  | invoke id src onDone onError => ⟨(onDone ++ onError).map (finishTrans (some id)), [⟨id, src⟩], [], []⟩

/-- Flattens a feature list in its order and numbers the transitions. -/
def flattenFeatures (fs : List Feature) : Flattened where
  transitions := (fs.flatMap fun f => f.flat.transitions).zipIdx.map fun e => { e.1 with index := e.2 }
  invokes := fs.flatMap fun f => f.flat.invokes
  entry := fs.flatMap fun f => f.flat.entry
  exit := fs.flatMap fun f => f.flat.exit

/-- The node of a specification at its place. -/
def NodeSpec.toNode (n : NodeSpec) (parent : NodeName) (depth order : Nat) : RNode where
  name := n.name
  kind := n.kind
  parent := parent
  children := n.children.map NodeSpec.name
  transitions := (flattenFeatures n.features).transitions
  entry := (flattenFeatures n.features).entry
  exit := (flattenFeatures n.features).exit
  invokes := (flattenFeatures n.features).invokes
  doneData := n.doneData
  order := order
  depth := depth

mutual

/-- Sibling subtrees left to right, with the preorder counter: the next free
    position and the entries. -/
def demoteForest (parent : NodeName) (depth next : Nat) : List NodeSpec → Nat × List (NodeName × RNode)
  | [] => (next, [])
  | n :: ns =>
    let (next', entries) := demoteTree parent depth next n
    let (next'', rest) := demoteForest parent depth next' ns
    (next'', entries ++ rest)

/-- One node at its position, then its children. -/
def demoteTree (parent : NodeName) (depth order : Nat) : NodeSpec → Nat × List (NodeName × RNode)
  | .compound n ini cs fs =>
    let (next, kids) := demoteForest n (depth + 1) (order + 1) cs
    (next, (n, NodeSpec.toNode (.compound n ini cs fs) parent depth order) :: kids)
  | .parallel n cs fs =>
    let (next, kids) := demoteForest n (depth + 1) (order + 1) cs
    (next, (n, NodeSpec.toNode (.parallel n cs fs) parent depth order) :: kids)
  | .atomic n fs => (order + 1, [(n, NodeSpec.toNode (.atomic n fs) parent depth order)])
  | .final n out => (order + 1, [(n, NodeSpec.toNode (.final n out) parent depth order)])
  | .history n k d => (order + 1, [(n, NodeSpec.toNode (.history n k d) parent depth order)])

end

/-- The chart of a specification. -/
def assemble (s : ChartSpec) : RChart where
  name := s.name
  initial := s.initial
  nodes := AssocMap.fromList (demoteForest rootName 1 1 s.states).2
  topLevel := s.states.map NodeSpec.name
  events := s.events
  rootTransitions := (flattenFeatures s.rootFeatures).transitions
  rootInvokes := (flattenFeatures s.rootFeatures).invokes
  rootEntry := (flattenFeatures s.rootFeatures).entry

/-! ## Checks -/

def NodeSpec.isHistory : NodeSpec → Bool
  | history _ _ _ => true
  | atomic _ _ | compound _ _ _ _ | parallel _ _ _ | final _ _ => false

/-- Every state name, in preorder. -/
def stateNames (s : ChartSpec) : List NodeName := (allNodes s.states).map NodeSpec.name

/-- The transitions of a feature list, with those of its invokes. -/
def transSpecs (fs : List Feature) : List TransSpec :=
  fs.flatMap fun
    | .trans t => [t]
    | .invoke _ _ onDone onError => onDone ++ onError
    | .entry _ | .exit _ => []

def invokeIds (fs : List Feature) : List String :=
  fs.filterMap fun
    | .invoke id _ _ _ => some id
    | .trans _ | .entry _ | .exit _ => none

/-- The feature lists of the chart, the root's first. -/
def featureLists (s : ChartSpec) : List (List Feature) := s.rootFeatures :: (allNodes s.states).map NodeSpec.features

/-- The names of the compound and parallel states. -/
def compositeNames (s : ChartSpec) : List NodeName :=
  (allNodes s.states).filterMap fun
    | .compound n _ _ _ | .parallel n _ _ => some n
    | .atomic _ _ | .final _ _ | .history _ _ _ => none

/-- Check 4 for one node. -/
def compoundOK : NodeSpec → Bool
  | .compound _ ini cs _ => !cs.isEmpty && (cs.map NodeSpec.name).contains ini
  | .atomic _ _ | .parallel _ _ _ | .final _ _ | .history _ _ _ => true

/-- Check 6 for one transition. -/
def eventOK (events : List String) (t : TransSpec) : Bool :=
  match t.trigger with
  | .on e => events.contains e
  | _ => true

/-- Check 7 for one transition. -/
def doneOK (composites : List NodeName) (t : TransSpec) : Bool :=
  match t.trigger with
  | .done n => composites.contains n
  | _ => true

/-- Check 9 for one feature. -/
def placementOK : Feature → Bool
  | .trans t => decide (t.trigger ≠ .invokeDone) && decide (t.trigger ≠ .invokeError)
  | .invoke _ _ onDone onError =>
    (onDone.all fun t => decide (t.trigger = .invokeDone)) && onError.all fun t => decide (t.trigger = .invokeError)
  | .entry _ | .exit _ => true

/-- Check 10 for one node. -/
def historyDefaultOK (known : List NodeName) : NodeSpec → Bool
  | .history _ _ (some d) => known.contains d
  | .history _ _ none | .atomic _ _ | .compound _ _ _ _ | .parallel _ _ _ | .final _ _ => true

/-- Check 11 for one feature. -/
def rootFeatureOK : Feature → Bool
  | .exit _ => false
  | .trans t =>
    match t.trigger with
    | .after _ => false
    | _ => true
  | .entry _ | .invoke _ _ _ _ => true

/-- **The compile-time checks.** -/
structure ValidChart (s : ChartSpec) : Prop where
  /-- 1; the root's name is reserved -/
  uniqueStateNames : (stateNames s).Nodup
  notRoot : rootName ∉ stateNames s
  /-- 2 -/
  uniqueEventNames : (s.events.map Prod.fst).Nodup
  /-- 3 -/
  initialState : (s.states.any fun n => decide (n.name = s.initial) && !n.isHistory) = true
  /-- 4 -/
  compoundStates : ((allNodes s.states).all compoundOK) = true
  /-- 5 -/
  transitionTargets : ∀ fs ∈ featureLists s, ∀ t ∈ transSpecs fs, ∀ n ∈ t.targets, n ∈ stateNames s
  /-- 6 -/
  eventTriggers : ∀ fs ∈ featureLists s, ((transSpecs fs).all (eventOK (s.events.map Prod.fst))) = true
  /-- 7 -/
  doneTriggers : ∀ fs ∈ featureLists s, ((transSpecs fs).all (doneOK (compositeNames s))) = true
  /-- 8 -/
  uniqueInvokeIds : ((featureLists s).flatMap invokeIds).Nodup
  /-- 9 -/
  invokeTriggersPlaced : ∀ fs ∈ featureLists s, (fs.all placementOK) = true
  /-- 10 -/
  historyDefaults : ((allNodes s.states).all (historyDefaultOK (stateNames s))) = true
  /-- 11 -/
  rootFeatures : (s.rootFeatures.all rootFeatureOK) = true

end Wireform.StateMachine
