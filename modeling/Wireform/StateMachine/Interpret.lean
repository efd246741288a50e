/-
  The interpreter (`StateMachine.Interpret`): one driver thread that owns the
  machine and a queue, and the timers, services and child charts that it starts.

  * `Armed`: the generation maps and the live threads by their keys;
  * `Driver`: the driver and its surroundings, between two of its actions;
  * `Move`: an action of the driver, or a timer that fires, an invocation that
    resolves or fails, an event that is sent, a halt;
  * `Reached`: the drivers of the runs of a machine.

  A thread is named by the number of its start request among the requests that
  the driver has carried out.  The queue and the driver keep such numbers and
  logs for the proofs; no action reads them.
-/
import Wireform.StateMachine.Trace
import Wireform.Filing
import Mathlib.Data.Prod.Lex

namespace Wireform.StateMachine

variable {T : Types}

/-! ## Threads -/

instance : LinearOrder TimerKey :=
  LinearOrder.lift' (fun k => toLex (k.node, toLex (k.delayMs, k.index))) fun k k' h => by
    cases k
    cases k'
    simpa using h

/-- What a request is about. -/
inductive Source where
  | timer (k : TimerKey)
  | invoke (i : String)
deriving DecidableEq

def EffectReq.source : EffectReq → Source
  | .startTimer k | .cancelTimer k => .timer k
  | .startInvoke i _ _ | .cancelInvoke i => .invoke i

def EffectReq.starts : EffectReq → Bool
  | .startTimer _ | .startInvoke _ _ _ => true
  | .cancelTimer _ | .cancelInvoke _ => false

/-- A timer that waits, a service that works or a child's waiter: the number of
    its start request, and the generation that it was armed under. -/
structure Thread where
  id : Nat
  source : Source
  gen : Nat
deriving DecidableEq

/-- A live invocation: a worker, or a child interpreter with its waiter. -/
inductive Run where
  | async (a : Nat)
  | child (waiter : Nat)
deriving DecidableEq

def Run.thread : Run → Nat
  | .async a | .child a => a

/-- The driver's bookkeeping: generations are never dropped, the other maps hold
    the live entries. -/
structure Armed where
  timerGens : AssocMap TimerKey Nat
  timers : AssocMap TimerKey Nat
  invokeGens : AssocMap String Nat
  runs : AssocMap String Run

def emptyArmed : Armed := ⟨[], [], [], []⟩

/-! ## The driver -/

/-- Who sent an event: a client, or the machine itself, a service or a child. -/
inductive Origin where
  | client
  | inside
deriving DecidableEq

/-- What the driver consumes; results carry the generation they were armed under
    (and the number of their thread). -/
inductive IEvent (T : Types) where
  | external (origin : Origin) (e : T.EventVal)
  | timer (k : TimerKey) (gen id : Nat)
  | invokeDone (i : String) (gen : Nat) (v : T.Dynamic) (id : Nat)
  | invokeError (i : String) (gen : Nat) (v : T.Dynamic) (id : Nat)
  | stop

/-- The event that the machine is stepped with. -/
def IEvent.stepEvent : IEvent T → Option (StepEvent T)
  | external _ e => some (.external e)
  | timer k _ _ => some (.timer k)
  | invokeDone i _ v _ => some (.invokeDone i v)
  | invokeError i _ v _ => some (.invokeError i v)
  | stop => none

/-- The thread whose result an event is. -/
def IEvent.thread : IEvent T → Option Thread
  | timer k gen id => some ⟨id, .timer k, gen⟩
  | invokeDone i gen _ id | invokeError i gen _ id => some ⟨id, .invoke i, gen⟩
  | external _ _ | stop => none

/-- The event that was sent. -/
def IEvent.sent : IEvent T → Option (Origin × T.EventVal)
  | external o e => some (o, e)
  | timer _ _ _ | invokeDone _ _ _ _ | invokeError _ _ _ _ | stop => none

/-- A queue event that the driver took: was it given to the machine, and what had
    happened before? -/
structure Handled (T : Types) where
  event : IEvent T
  processed : Bool
  requests : List EffectReq
  traces : List MicroTrace
  config : Config

/-- What the driver is at. -/
inductive Phase (T : Types) where
  /-- it waits for the queue -/
  | waiting
  /-- it carries out what a step requested -/
  | applying (effects : List EffectReq) (sends : List (SendReq T))
  /-- the outcome is settled -/
  | releasing
  | stopped

structure Driver (T : Types) where
  queue : List (IEvent T)
  machine : Machine T
  accepting : Bool
  outcome : Option (Except StepFault T.Output)
  armed : Armed
  phase : Phase T
  threads : List Thread
  /-- the requests that were carried out -/
  requests : List EffectReq
  /-- the microsteps of the machine -/
  traces : List MicroTrace
  handled : List (Handled T)
  /-- the events whose sender was told that they are accepted -/
  accepted : List (Origin × T.EventVal)

/-- How an invocation is run. -/
inductive Service where
  | promise
  | callback
  | chart
deriving DecidableEq

/-- The services, and how failures are shown. -/
structure Host (T : Types) where
  services : String → Option Service
  unknownService : String → T.Dynamic
  showFailure : Failure T → String

/-- A service by its name: an error at once, or a run. -/
def Host.start (host : Host T) (failed : Option T.Dynamic) (src : String) : Except T.Dynamic (Nat → Run) :=
  match host.services src with
  | none => .error (host.unknownService src)
  | some .promise | some .callback => .ok .async
  | some .chart =>
    match failed with
    | some v => .error v
    | none => .ok .child

namespace Driver

def enqueue (d : Driver T) (e : IEvent T) : Driver T := { d with queue := d.queue ++ [e] }

/-- `send` and `enqueueEvent`: the event is enqueued while the intake is open. -/
def send (d : Driver T) (o : Origin) (e : T.EventVal) : Driver T :=
  if d.accepting then { d.enqueue (.external o e) with accepted := d.accepted ++ [(o, e)] } else d

def halt (d : Driver T) : Driver T := { d with accepting := false }.enqueue .stop

/-- Cancels the thread, where it is still live. -/
def cancel (d : Driver T) (a : Option Nat) : Driver T := { d with threads := d.threads.filter fun t => some t.id ≠ a }

def spawn (d : Driver T) (s : Source) (gen : Nat) : Driver T :=
  { d with threads := d.threads ++ [⟨d.requests.length, s, gen⟩] }

/-! ## Effects -/

def startTimer (d : Driver T) (key : TimerKey) : Driver T :=
  let gen := 1 + (d.armed.timerGens.lookup key).getD 0
  let d' := (d.cancel (d.armed.timers.lookup key)).spawn (.timer key) gen
  { d' with armed := { d.armed with
      timerGens := d.armed.timerGens.insert key gen
      timers := d.armed.timers.insert key d.requests.length } }

def cancelTimer (d : Driver T) (key : TimerKey) : Driver T :=
  let gen := 1 + (d.armed.timerGens.lookup key).getD 0
  let d' := d.cancel (d.armed.timers.lookup key)
  { d' with armed := { d.armed with
      timerGens := d.armed.timerGens.insert key gen
      timers := d.armed.timers.erase key } }

/-- Starts an invocation; `failed` is the error of a child chart that does not
    start. -/
def startInvoke (host : Host T) (failed : Option T.Dynamic) (d : Driver T) (invokeId src : String) : Driver T :=
  let gen := 1 + (d.armed.invokeGens.lookup invokeId).getD 0
  let d' := d.cancel ((d.armed.runs.lookup invokeId).map Run.thread)
  match host.start failed src with
  | .error v =>
    { d'.enqueue (.invokeError invokeId gen v d.requests.length) with armed := { d.armed with
        invokeGens := d.armed.invokeGens.insert invokeId gen
        runs := d.armed.runs.erase invokeId } }
  | .ok run =>
    { d'.spawn (.invoke invokeId) gen with armed := { d.armed with
        invokeGens := d.armed.invokeGens.insert invokeId gen
        runs := d.armed.runs.insert invokeId (run d.requests.length) } }

def cancelInvoke (d : Driver T) (invokeId : String) : Driver T :=
  let gen := 1 + (d.armed.invokeGens.lookup invokeId).getD 0
  let d' := d.cancel ((d.armed.runs.lookup invokeId).map Run.thread)
  { d' with armed := { d.armed with
      invokeGens := d.armed.invokeGens.insert invokeId gen
      runs := d.armed.runs.erase invokeId } }

/-- Carries out one request. -/
def applyEffect (host : Host T) (failed : Option T.Dynamic) (d : Driver T) (req : EffectReq) : Driver T :=
  let d' :=
    match req with
    | .startTimer key => d.startTimer key
    | .cancelTimer key => d.cancelTimer key
    | .startInvoke invokeId src _ => d.startInvoke host failed invokeId src
    | .cancelInvoke invokeId => d.cancelInvoke invokeId
  { d' with requests := d.requests ++ [req] }

/-- A send to itself goes into the queue; children and parents have queues of
    their own. -/
def applySend (d : Driver T) (sr : SendReq T) : Driver T :=
  match sr.target with
  | .toSelf => d.send .inside sr.event
  | .toChild _ | .toParent => d

/-! ## Ends -/

/-- Closes the intake and records the outcome, the first one for good. -/
def settle (d : Driver T) (out : Except StepFault T.Output) : Driver T :=
  { d with accepting := false, outcome := d.outcome.or (some out), phase := .releasing }

/-- Cancels everything live. -/
def releaseAll (d : Driver T) : Driver T :=
  { d with
    armed := emptyArmed
    threads := d.threads.filter fun t =>
      !(d.armed.timers.map Prod.snd ++ d.armed.runs.map fun e => e.2.thread).contains t.id
    phase := .stopped }

/-- After the sends of a step. -/
def committed (d : Driver T) : Driver T :=
  match d.machine.status with
  | .running => { d with phase := .waiting }
  | .finished out => d.settle (.ok out)

/-! ## Events -/

/-- What a step of the machine comes to. -/
def stepWith (host : Host T) (d : Driver T) : Except (Failure T) (Except StepFault (Stepped T)) → Driver T
  | .error e => d.settle (.error (.internalFault ("action threw: " ++ host.showFailure e)))
  | .ok (.error f) => d.settle (.error f)
  | .ok (.ok s) =>
    { d with machine := s.machine, traces := d.traces ++ s.trace, phase := .applying s.effects s.sends }

def log (d : Driver T) (e : IEvent T) (processed : Bool) : Driver T :=
  { d with handled := d.handled ++ [⟨e, processed, d.requests, d.traces, d.machine.config⟩] }

/-- Is the generation of an event's thread the current one?  Always so for the
    events that no thread sent. -/
def isCurrent (d : Driver T) : IEvent T → Bool
  | .timer k gen _ => d.armed.timerGens.lookup k == some gen
  | .invokeDone i gen _ _ | .invokeError i gen _ _ => d.armed.invokeGens.lookup i == some gen
  | .external _ _ | .stop => true

/-- The live entry of an event's thread is dropped before the step. -/
def resolved (d : Driver T) : IEvent T → Driver T
  | .timer k _ _ => { d with armed := { d.armed with timers := d.armed.timers.erase k } }
  | .invokeDone i _ _ _ | .invokeError i _ _ _ => { d with armed := { d.armed with runs := d.armed.runs.erase i } }
  | .external _ _ | .stop => d

/-- Takes an event from the queue; `r` is what a step of the machine with it comes
    to. -/
def dispatch (host : Host T) (d : Driver T) (e : IEvent T) (r : Except (Failure T) (Except StepFault (Stepped T))) :
    Driver T :=
  match e with
  | .stop => (d.log e true).settle (.error (.internalFault "halted"))
  | _ => if d.isCurrent e then ((d.log e true).resolved e).stepWith host r else d.log e false

/-- The driver starts with the requests of the machine's start. -/
def boot (s : Stepped T) : Driver T where
  queue := []
  machine := s.machine
  accepting := true
  outcome := none
  armed := emptyArmed
  phase := .applying s.effects s.sends
  threads := []
  requests := []
  traces := s.trace
  handled := []
  accepted := []

end Driver

/-! ## Moves -/

/-- From some world the machine's step comes to `r`. -/
inductive Answers (impl : ChartImpl T) (m : Machine T) (ev : StepEvent T) :
    Except (Failure T) (Except StepFault (Stepped T)) → Prop
  | thrown {fuel : Nat} {w : T.World} {e : Failure T} (h : step fuel impl m ev w = some (.error e)) :
      Answers impl m ev (.error e)
  | returned {fuel : Nat} {w w' : T.World} {r : Except StepFault (Stepped T)} (h : Yields (step fuel impl m ev) w r w') :
      Answers impl m ev (.ok r)

inductive Move (host : Host T) (impl : ChartImpl T) : Driver T → Driver T → Prop
  | fire {d : Driver T} {k : TimerKey} {gen id : Nat} (h : ⟨id, .timer k, gen⟩ ∈ d.threads) :
      Move host impl d ((d.cancel (some id)).enqueue (.timer k gen id))
  | resolve {d : Driver T} {i : String} {gen id : Nat} {v : T.Dynamic} (h : ⟨id, .invoke i, gen⟩ ∈ d.threads) :
      Move host impl d ((d.cancel (some id)).enqueue (.invokeDone i gen v id))
  | fail {d : Driver T} {i : String} {gen id : Nat} {v : T.Dynamic} (h : ⟨id, .invoke i, gen⟩ ∈ d.threads) :
      Move host impl d ((d.cancel (some id)).enqueue (.invokeError i gen v id))
  | send {d : Driver T} {o : Origin} {e : T.EventVal} : Move host impl d (d.send o e)
  | halt {d : Driver T} : Move host impl d d.halt
  | effect {d : Driver T} {e : EffectReq} {es : List EffectReq} {ss : List (SendReq T)} {failed : Option T.Dynamic}
      (h : d.phase = .applying (e :: es) ss) : Move host impl d { d.applyEffect host failed e with phase := .applying es ss }
  | deliver {d : Driver T} {s : SendReq T} {ss : List (SendReq T)} (h : d.phase = .applying [] (s :: ss)) :
      Move host impl d { d.applySend s with phase := .applying [] ss }
  | commit {d : Driver T} (h : d.phase = .applying [] []) : Move host impl d d.committed
  | dispatch {d : Driver T} {e : IEvent T} {q : List (IEvent T)} {r : Except (Failure T) (Except StepFault (Stepped T))}
      (h : d.phase = .waiting) (hq : d.queue = e :: q) (hr : ∀ ev, e.stepEvent = some ev → Answers impl d.machine ev r) :
      Move host impl d ({ d with queue := q }.dispatch host e r)
  | release {d : Driver T} (h : d.phase = .releasing) : Move host impl d d.releaseAll

/-- The drivers of the runs of a machine. -/
inductive Reached (host : Host T) (impl : ChartImpl T) : Driver T → Prop
  | boot {fuel : Nat} {ctx0 : T.Ctx} {s : Stepped T} {w w' : T.World}
      (h : Yields (initializeMachine fuel impl ctx0) w (.ok s) w') : Reached host impl (Driver.boot s)
  | move {d d' : Driver T} (h : Reached host impl d) (hm : Move host impl d d') : Reached host impl d'

end Wireform.StateMachine
