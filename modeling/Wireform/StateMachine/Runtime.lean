/-
  The structure of a statechart (`StateMachine.Runtime`).

  An `RChart` is the node tree that the step algorithm consults.  State names
  are unique, so a name is an address; `rootName` is the parent of the
  top-level states.

  * `properAncestors`, `descendantsOf`: the walks up and down the tree; their
    fuel is the depth that `assemble` gives the nodes;
  * `lcca`: the least common compound ancestor;
  * `armsFor`, `cancelsFor`: the requests for an entered and an exited state.
-/
import Wireform.AssocMap
import Wireform.OrderedSet
import Mathlib.Data.String.Basic
import Mathlib.Data.List.Sort

namespace Wireform.StateMachine

/-! ## Structure -/

abbrev NodeName := String

/-- The synthetic root. -/
def rootName : NodeName := "#root"

inductive HistoryKind where
  /-- the child of the parent that was active on exit -/
  | shallow
  /-- the atomic configuration beneath the parent -/
  | deep
deriving DecidableEq

inductive RNodeKind where
  | atomic
  | compound (ini : NodeName)
  | parallel
  | final
  | history (k : HistoryKind) (default : Option NodeName)
deriving DecidableEq

inductive RTrigger where
  | on (e : String)
  | wildcard
  | always
  | after (ms : Nat)
  | done (n : NodeName)
  | invokeDone (i : String)
  | invokeError (i : String)
deriving DecidableEq

/-- One transition of a node; `index` is its position among them. -/
structure RTrans where
  trigger : RTrigger
  guard : Option String
  targets : List NodeName
  actions : List String
  internal : Bool
  index : Nat
deriving DecidableEq

structure RInvoke where
  id : String
  src : String
deriving DecidableEq

structure RNode where
  name : NodeName
  kind : RNodeKind
  parent : NodeName
  children : List NodeName
  transitions : List RTrans
  entry : List String
  exit : List String
  invokes : List RInvoke
  doneData : Option String
  order : Nat
  depth : Nat
deriving DecidableEq

structure RChart where
  name : String
  initial : NodeName
  nodes : AssocMap NodeName RNode
  topLevel : List NodeName
  events : List (String × String)
  rootTransitions : List RTrans
  rootInvokes : List RInvoke
  rootEntry : List String

/-! ## Events and effect requests -/

/-- A scheduled delay: the owning node, the delay, the index of the transition. -/
structure TimerKey where
  node : NodeName
  delayMs : Nat
  index : Nat
deriving DecidableEq

inductive EventKey where
  | named (e : String)
  | timer (k : TimerKey)
  | done (n : NodeName)
  | invokeDone (i : String)
  | invokeError (i : String)
  | init
deriving DecidableEq

/-- Does a transition of `src` fire for an event? -/
def triggerMatches (src : NodeName) (tr : RTrans) (k : EventKey) : Bool :=
  match tr.trigger, k with
  | .on n, .named n' => n == n'
  | .wildcard, .named _ => true
  | .after ms, .timer ⟨node, ms', ix⟩ => node == src && ms == ms' && ix == tr.index
  | .done n, .done n' => n == n'
  | .invokeDone i, .invokeDone i' => i == i'
  | .invokeError i, .invokeError i' => i == i'
  | _, _ => false

inductive EffectReq where
  | startTimer (k : TimerKey)
  | cancelTimer (k : TimerKey)
  | startInvoke (id src : String) (node : NodeName)
  | cancelInvoke (id : String)
deriving DecidableEq

/-- The active states, ancestors included, the root left out. -/
abbrev Config := OrderedSet NodeName

/-- What is recorded for each history pseudo-state. -/
abbrev History := AssocMap NodeName (OrderedSet NodeName)

/-! ## Tree algebra -/

section
variable (c : RChart)

def lookupNode (n : NodeName) : Option RNode := c.nodes.lookup n

def nodeKindOf (n : NodeName) : Option RNodeKind := (lookupNode c n).map RNode.kind

def parentOf (n : NodeName) : Option NodeName := (lookupNode c n).map RNode.parent

def childrenOf (n : NodeName) : List NodeName :=
  if n = rootName then c.topLevel else ((lookupNode c n).map RNode.children).getD []

def depthOf (n : NodeName) : Nat := ((lookupNode c n).map RNode.depth).getD 0

def properAncestors.go : Nat → NodeName → List NodeName
  | 0, _ => []
  | k + 1, n =>
    match parentOf c n with
    | none => []
    | some p => if p = rootName then [rootName] else p :: properAncestors.go k p

/-- The ancestors, closest first, ending with the root. -/
def properAncestors (n : NodeName) : List NodeName := properAncestors.go c (depthOf c n) n

def descendantsOf.go : Nat → NodeName → List NodeName
  | 0, _ => []
  | k + 1, n => (childrenOf c n).flatMap fun m => m :: descendantsOf.go k m

def maxDepth : Nat := (c.nodes.map fun e => e.2.depth).foldl max 0

/-- The descendants in document order. -/
def descendantsOf (n : NodeName) : List NodeName := descendantsOf.go c (maxDepth c) n

/-- Is `a` a proper descendant of `b`? -/
def isDescendantOf (a b : NodeName) : Bool := decide (b = rootName) || (properAncestors c a).contains b

def isAtomic (n : NodeName) : Bool :=
  match nodeKindOf c n with
  | some .atomic | some .final => true
  | _ => false

def isFinal (n : NodeName) : Bool := nodeKindOf c n == some .final

def isCompound (n : NodeName) : Bool :=
  match nodeKindOf c n with
  | some (.compound _) => true
  | _ => false

def isParallel (n : NodeName) : Bool := nodeKindOf c n == some .parallel

def isHistory (n : NodeName) : Bool :=
  match nodeKindOf c n with
  | some (.history _ _) => true
  | _ => false

/-- The position in preorder; an unknown name sorts last. -/
def docOrder (n : NodeName) : Nat := ((lookupNode c n).map RNode.order).getD (2 ^ 63 - 1)

/-- Entry order: parents before children. -/
def sortByDocOrder (ns : List NodeName) : List NodeName :=
  ns.insertionSort fun a b => docOrder c a ≤ docOrder c b

/-- Exit order: children before parents. -/
def sortByExitOrder (ns : List NodeName) : List NodeName :=
  ns.insertionSort fun a b => docOrder c b ≤ docOrder c a

/-- The least common compound ancestor: the deepest compound or parallel state,
    or the root, above every given node. -/
def lcca : List NodeName → NodeName
  | [] => rootName
  | n :: ns =>
    (((properAncestors c n).filter fun a => decide (a = rootName) || isCompound c a || isParallel c a).find? fun a =>
      ns.all fun x => isDescendantOf c x a).getD rootName

/-- The active atomic states. -/
def atomicOf (cfg : Config) : List NodeName := cfg.filter (isAtomic c)

def transitionsOf (n : NodeName) : List RTrans :=
  if n = rootName then c.rootTransitions else ((lookupNode c n).map RNode.transitions).getD []

/-- The regions of a parallel state, and what counts as its children: all but
    the history pseudo-states. -/
def regionsOf (n : NodeName) : List NodeName := (childrenOf c n).filter fun r => !isHistory c r

/-- The timer that a transition of `n` schedules. -/
def timerOf (n : NodeName) (t : RTrans) : Option TimerKey :=
  match t.trigger with
  | .after ms => some ⟨n, ms, t.index⟩
  | _ => none

def timersOf (n : NodeName) : List TimerKey := (transitionsOf c n).filterMap (timerOf n)

def invokesOf (n : NodeName) : List RInvoke := ((lookupNode c n).map RNode.invokes).getD []

/-- The requests for an entered state. -/
def armsFor (n : NodeName) : List EffectReq :=
  (timersOf c n).map .startTimer ++ (invokesOf c n).map fun iv => .startInvoke iv.id iv.src n

/-- The requests for an exited state. -/
def cancelsFor (n : NodeName) : List EffectReq :=
  (timersOf c n).map .cancelTimer ++ (invokesOf c n).map fun iv => .cancelInvoke iv.id

/-- The invocations of the root. -/
def rootArms : List EffectReq := c.rootInvokes.map fun iv => .startInvoke iv.id iv.src rootName

end

end Wireform.StateMachine
