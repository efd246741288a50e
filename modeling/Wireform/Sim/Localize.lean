/-
  The minimiser of bugs (`Sim.Localize`).

  A fault decision is an index into a menu that depends on the decisions before
  it.  The minimiser resolves the faults of a path to their contents (`toOps`),
  reduces that list with `ddminList` against an oracle that runs a sublist
  (`runOps`), and turns the result back into a path (`opsToPath`).

  * `settle`: the clock advances until an entry resolves; `pending` bounds the
    advances;
  * `walk`: the loop of `toOps` and `opsToPath`;
  * `minimizeBug`: what `explainBug` reports as the minimal input.
-/
import Wireform.Sim.Ddmin
import Wireform.Sim.Search

namespace Wireform.Sim

variable {P : Platform}

/-! ## Decisions by content -/

inductive OpDecision where
  | sched (f : FiberId)
  | deliver (m : MsgId)
  | fault (op : FaultOp)
deriving DecidableEq

/-- The content of a legal decision. -/
def toOp (w : World P) : Decision → Option OpDecision
  | .schedNext f => some (.sched f)
  | .deliverMsg m => some (.deliver m)
  | .fireFault i => (availableFaults w.nemesis w)[i.toNat]?.map .fault

def resolveOp (w : World P) : OpDecision → Option Decision
  | .sched f => if (runnable w).contains (.schedNext f) then some (.schedNext f) else none
  | .deliver m => if (runnable w).contains (.deliverMsg m) then some (.deliverMsg m) else none
  | .fault op => ((availableFaults w.nemesis w).idxOf? op).map fun (i : Nat) => .fireFault i

/-! ## Walks -/

/-- What may still be waited for: timers, pauses, and the clogs and messages of
    the future. -/
def pending (w : World P) : Nat :=
  w.fibers.countP (fun e => e.2.status.wakeTime.isSome) + w.nodes.countP (fun e => e.2.pausedUntil.isSome) +
  w.links.countP (fun e => e.2.clogUntil.any fun t => w.clock < t) + w.inFlight.countP (fun e => w.clock < e.2.dueAt)

/-- Advances the clock until the entry resolves or nothing is left to wait for. -/
def settle {ι κ : Type} (resolve : World P → ι → Option (Decision × κ)) (x : ι) : Nat → World P → World P
  | 0, w => w
  | fuel + 1, w =>
    if (resolve w x).isNone && canAdvanceTime w then settle resolve x fuel (advanceClock w) else w

/-- The loop of `toOps` and `opsToPath`: an entry that resolves is taken and its
    translation recorded, an entry that never does is skipped.  The last step of
    a path is not looked at, so an error in it is not raised. -/
def walk {ι κ : Type} (resolve : World P → ι → Option (Decision × κ)) :
    Except VarError (World P) → List ι → Except VarError (List κ)
  | _, [] => .ok []
  | .error e, _ :: _ => .error e
  | .ok w, x :: xs =>
    let v := settle resolve x (pending w) w
    match resolve v x with
    | none => walk resolve (.ok v) xs
    | some (d, y) => (walk resolve ((step v d).map StepResult.world) xs).map fun ys => y :: ys

/-- A legal decision with its content. -/
def withOp (w : World P) (d : Decision) : Option (Decision × OpDecision) :=
  (resolveDecision w d).bind fun d => (toOp w d).map fun op => (d, op)

/-- The decision of an operation, which is also its entry in the path. -/
def withDecision (w : World P) (op : OpDecision) : Option (Decision × Decision) :=
  (resolveOp w op).map fun d => (d, d)

/-- Resolves a run's path into decisions by content. -/
def toOps (scen : Scenario P) (ri : RunInput) : Except VarError (List OpDecision) :=
  walk withOp (.ok (startWorld ri.seed ri.buggify scen)) ri.path

/-- Converts operations back to a path, only those that resolve. -/
def opsToPath (scen : Scenario P) (seed : Seed) (bug : AssocMap SiteId Bool) (ops : List OpDecision) :
    Except VarError DecisionPath :=
  walk withDecision (.ok (startWorld seed bug scen)) ops

/-! ## The minimiser -/

/-- Runs operations and then drives on as `replay` does. -/
def runOps (scen : Scenario P) (seed : Seed) (bug : AssocMap SiteId Bool) (ops : List OpDecision) :
    Except VarError (RunResult P) :=
  driveLoop scen.invariant resolveOp maxDriveSteps (startWorld seed bug scen) ops [] []

/-- The run of the operations fails with the bug's reason.  (Where it raises an
    error, the source's minimiser does.) -/
def oracle (scen : Scenario P) (bug : Bug) (sub : List OpDecision) : Bool :=
  match runOps scen bug.input.seed bug.input.buggify sub with
  | .ok res => decide (res.fail = some bug.reason)
  | .error _ => false

/-- The reproducer that `explainBug` reports.  `ddminList` has a result by
    `ddminList_spec`. -/
def minimizeBug (scen : Scenario P) (bug : Bug) : Except VarError RunInput :=
  match toOps scen bug.input with
  | .error e => .error e
  | .ok ops0 =>
    let minOps := (ddminList (oracle scen bug) ops0).getD ops0
    (opsToPath scen bug.input.seed bug.input.buggify minOps).map fun path => { bug.input with path := path }

end Wireform.Sim
