/-
  The guided search for bugs (`Sim.Coverage`, `Sim.Assert`, `Sim.Search`).

  A frontier of snapshots, best reward first, is expanded by a bounded choice of
  the legal decisions; each fork takes its decision and rolls a look-ahead from
  there that fires faults, drives fibers and messages and jumps the clock.  A
  failure on the way becomes a `Bug` with the decisions that lead to it.

  The fields `moves` and `failMoves` are a record for the proofs: what the
  search did, clock advances included.  The source keeps the decisions only.
-/
import Wireform.Sim.Interp
import Mathlib.Data.List.Sort

namespace Wireform.Sim

variable {P : Platform}

/-! ## Coverage -/

/-- A finite set of keys. -/
abbrev KeySet (κ : Type) := AssocMap κ Unit

def KeySet.insert {κ : Type} [LinearOrder κ] (k : κ) (s : KeySet κ) : KeySet κ := AssocMap.insert k () s

def KeySet.union {κ : Type} [LinearOrder κ] (s s' : KeySet κ) : KeySet κ := s.foldl (fun s e => KeySet.insert e.1 s) s'

def KeySet.member {κ : Type} [LinearOrder κ] (k : κ) (s : KeySet κ) : Bool := (AssocMap.lookup k s).isSome

/-- The features a run exhibits. -/
structure CovSet where
  edges : KeySet SiteId
  states : KeySet StateKey
  rare : AssocMap StateKey Int

def emptyCov : CovSet := ⟨[], [], []⟩

/-- Each maximal run of digits becomes a single `#`.  The flag says that the
    last character was a digit. -/
def collapse : Bool → List Char → List Char
  | _, [] => []
  | inRun, c :: cs =>
    if c.isDigit then if inRun then collapse true cs else '#' :: collapse true cs
    else c :: collapse false cs

def logTemplateKey (t : String) : StateKey := mixKey ((collapse false t.toList).map fun c => UInt64.ofNat c.toNat)

def covFromEvents (evs : List SimEvent) : CovSet :=
  evs.foldr (fun ev cs =>
    match ev with
    | .cover s => { cs with edges := cs.edges.insert s }
    | .observe k => { cs with states := cs.states.insert k }
    | .log _ t => { cs with rare := AssocMap.insertWith (· + ·) (logTemplateKey t) 1 cs.rare }
    | _ => cs) emptyCov

def mergeCov (a b : CovSet) : CovSet where
  edges := a.edges.union b.edges
  states := a.states.union b.states
  rare := b.rare.foldl (fun m e => AssocMap.insertWith (· + ·) e.1 e.2 m) a.rare

inductive Feature where
  | edge (s : SiteId)
  | state (k : StateKey)
  | rare (k : StateKey)
deriving DecidableEq

/-- The features in order: the family first. -/
def Feature.rank : Feature → Nat ×ₗ String ×ₗ Nat
  | .edge s => toLex (0, toLex (s, 0))
  | .state k => toLex (1, toLex ("", k.val.toNat))
  | .rare k => toLex (2, toLex ("", k.val.toNat))

theorem Feature.rank_injective : Function.Injective Feature.rank := by
  intro f f' h
  have hval {k k' : StateKey} (hk : k.val.toNat = k'.val.toNat) : k = k' := by
    cases k
    cases k'
    exact congrArg StateKey.mk (UInt64.toNat_inj.1 hk)
  cases f <;> cases f' <;> simp [Feature.rank] at h
  · exact congrArg Feature.edge h
  · exact congrArg Feature.state (hval h)
  · exact congrArg Feature.rare (hval h)

instance : LinearOrder Feature := LinearOrder.lift' Feature.rank Feature.rank_injective

def features (cs : CovSet) : List Feature :=
  cs.edges.map (fun e => .edge e.1) ++ cs.states.map (fun e => .state e.1) ++ cs.rare.map (fun e => .rare e.1)

/-- Per feature, the number of runs that had it. -/
abbrev GlobalCounts := AssocMap Feature Int

def bumpCounts (cs : CovSet) (counts : GlobalCounts) : GlobalCounts :=
  (features cs).foldr (fun f m => AssocMap.insertWith (· + ·) f 1 m) counts

/-- The reward of a run: for every feature that was never seen. -/
def novelty (beta : Float) (counts : GlobalCounts) (cs : CovSet) : Float :=
  beta * Float.ofNat ((features cs).filter fun f => (counts.lookup f).isNone).length

/-! ## Assertions -/

structure AssertReport where
  violations : List FailReason
  sometimes : AssocMap SiteId Bool
  reachable : KeySet SiteId

def emptyAssertReport : AssertReport := ⟨[], [], []⟩

def foldAsserts (evs : List SimEvent) (rep : AssertReport) : AssertReport :=
  evs.foldl (fun rep ev =>
    match ev with
    | .assert s .always false => { rep with violations := .assertViolated s .always :: rep.violations }
    | .assert s .alwaysOrUnreachable false =>
      { rep with violations := .assertViolated s .alwaysOrUnreachable :: rep.violations }
    | .assert s .unreachable true => { rep with violations := .assertViolated s .unreachable :: rep.violations }
    | .assert s .sometimes b => { rep with sometimes := AssocMap.insertWith (· || ·) s b rep.sometimes }
    | .assert s .reachable _ => { rep with reachable := rep.reachable.insert s }
    | _ => rep) rep

/-- The first assertion failure of a trace. -/
def runFailFromAsserts (evs : List SimEvent) : Option FailReason := (evs.filterMap eventFail).head?

/-! ## Snapshots and bugs -/

/-- A world, the decisions that reached it, its coverage, its depth and its
    parent. -/
structure Snapshot (P : Platform) where
  world : World P
  path : DecisionPath
  cov : CovSet
  depth : Int
  parent : Option Int

/-- The tuning of a search. -/
structure SearchConfig where
  forkWidth : Int
  horizon : Int
  maxRuns : Int
  novBeta : Float

structure Bug where
  input : RunInput
  reason : FailReason
  moves : List Move

structure SearchOutcome (P : Platform) where
  bugs : List Bug
  corpus : List (Snapshot P)
  cov : CovSet
  report : AssertReport
  runs : Int

/-- `fromIntegral` to a machine word. -/
def word (i : Int) : UInt64 := (Int64.ofInt i).toUInt64

def FiberStatus.code : FiberStatus → UInt64
  | .runnable => 0
  | .blockedRecv => 1
  | .blockedTimer _ => 2
  | .dead => 3

/-- A fingerprint of a world. -/
def fingerprintWorld (w : World P) : UInt64 :=
  (mixKey (w.clock :: word w.faultsFired ::
    w.fibers.flatMap (fun e => [word e.1, e.2.status.code]) ++ w.inFlight.map fun e => word e.1)).val

def decCode : Decision → List UInt64
  | .schedNext f => [0, word f]
  | .deliverMsg m => [1, word m]
  | .fireFault i => [2, word i]

/-- A stable id of a path. -/
def pathId (ds : DecisionPath) : Int := (mixKey (ds.flatMap decCode)).val.toInt64.toInt

def faultKindOf : FaultOp → FaultKind
  | .dropMessage _ => .drop
  | .partition _ _ => .partition
  | .heal _ _ => .partition
  | .clog _ _ _ => .clog
  | .crashNode _ => .crash
  | .rebootNode _ => .reboot
  | .pauseNode _ _ => .pause
  | .clockSkew _ _ => .skew
  | .corruptWrite _ => .corrupt
  | .tearWrite _ => .tear
  | .diskLatency _ _ => .diskLatency

def decisionKind (w : World P) : Decision → Option FaultKind
  | .fireFault i => if i < 0 then none else ((availableFaults w.nemesis w)[i.toNat]?).map faultKindOf
  | .schedNext _ | .deliverMsg _ => none

/-! ## Forks -/

def faultProb : Float := 0.4

/-- A roll of the look-ahead. -/
structure Rolled where
  path : DecisionPath
  events : List SimEvent
  fail : Option FailReason
  moves : List Move

/-- A fault of the menu at random. -/
def pickFault (faults : List Decision) (g : P.Gen) : Option Decision × P.Gen :=
  let (i, g') := uniformR (0, (faults.length : Int) - 1) g
  (faults[i.toNat]?, g')

/-- The next decision of a look-ahead: a fault with probability `faultProb` or
    when there is nothing else, otherwise the first that is no fault. -/
def rolloutChoice (w : World P) (g : P.Gen) : Option Decision × P.Gen :=
  let rs := runnable w
  let faults := rs.filter Decision.isFault
  let nonfaults := rs.filter fun d => !d.isFault
  let (coin, g1) := P.nextDouble g
  if nonfaults.isEmpty && faults.isEmpty then (none, g1)
  else if nonfaults.isEmpty then pickFault faults g1
  else if !faults.isEmpty && decide (coin < faultProb) then pickFault faults g1
  else (nonfaults.head?, g1)

/-- The loop of `rollout`, for at most `n` moves. -/
def rollout.go (scen : Scenario P) :
    DecisionPath → List SimEvent → List Move → P.Gen → Nat → World P → Except VarError Rolled
  | accDs, accEv, accMs, _, 0, _ => .ok ⟨accDs, accEv, none, accMs⟩
  | accDs, accEv, accMs, g, n + 1, w =>
    if !scen.invariant w then .ok ⟨accDs, accEv, some (.invariantBroken "scenario invariant"), accMs⟩
    else
      match rolloutChoice w g with
      | (some d, g2) =>
        match step w d with
        | .error e => .error e
        | .ok r =>
          match runFailFromAsserts r.events with
          | some reason => .ok ⟨accDs ++ [d], accEv ++ r.events, some reason, accMs ++ [.decide d]⟩
          | none => rollout.go scen (accDs ++ [d]) (accEv ++ r.events) (accMs ++ [.decide d]) g2 n r.world
      | (none, g2) =>
        if canAdvanceTime w then rollout.go scen accDs accEv (accMs ++ [.tick]) g2 n (advanceClock w)
        else .ok ⟨accDs, accEv, if deadlocked w then some .deadlock else none, accMs⟩

/-- A nemesis-driven look-ahead of at most `n` moves. -/
def rollout (scen : Scenario P) (g : P.Gen) (n : Int) (w : World P) : Except VarError Rolled :=
  rollout.go scen [] [] [] g n.toNat w

structure ForkResult (P : Platform) where
  childWorld : World P
  childPath : DecisionPath
  childCov : CovSet
  lookCov : CovSet
  fail : Option FailReason
  failPath : DecisionPath
  lookEvents : List SimEvent
  kind : Option FaultKind
  fp : UInt64
  depth : Int
  failMoves : List Move

/-- Applies a decision to a snapshot and looks ahead from there. -/
def evalFork (scen : Scenario P) (cfg : SearchConfig) (snap : Snapshot P) (d : Decision) :
    Except VarError (ForkResult P) :=
  match step snap.world d with
  | .error e => .error e
  | .ok r =>
    let childPath := snap.path ++ [d]
    let base := fun mf failPath lookEvs failMoves =>
      { childWorld := r.world
        childPath
        childCov := mergeCov snap.cov (covFromEvents r.events)
        lookCov := mergeCov snap.cov (covFromEvents lookEvs)
        fail := mf
        failPath
        lookEvents := lookEvs
        kind := decisionKind snap.world d
        fp := fingerprintWorld r.world
        depth := snap.depth + 1
        failMoves : ForkResult P }
    match runFailFromAsserts r.events with
    | some reason => .ok (base (some reason) childPath r.events (childPath.map .decide))
    | none =>
      if !scen.invariant r.world then
        .ok (base (some (.invariantBroken "scenario invariant")) childPath r.events (childPath.map .decide))
      else
        match rollout scen (P.mkSMGen (word (pathId childPath))) cfg.horizon r.world with
        | .error e => .error e
        | .ok roll =>
          .ok (base roll.fail (childPath ++ roll.path) (r.events ++ roll.events) (childPath.map .decide ++ roll.moves))

/-! ## The choice of decisions -/

def FaultKind.rank : FaultKind → Nat
  | .drop => 0
  | .partition => 1
  | .clog => 2
  | .crash => 3
  | .reboot => 4
  | .pause => 5
  | .skew => 6
  | .corrupt => 7
  | .tear => 8
  | .diskLatency => 9

instance : LinearOrder FaultKind :=
  LinearOrder.lift' FaultKind.rank fun k k' h => by cases k <;> cases k' <;> first | rfl | cases h

/-- Pulls and total reward of every kind of fault. -/
abbrev Bandit := AssocMap FaultKind (Int × Float)

/-- The upper confidence bound of a decision; a kind that was never tried is
    maximally attractive. -/
def ucb (bandit : Bandit) (tPulls : Int) (w : World P) (d : Decision) : Float :=
  match decisionKind w d with
  | none => 0
  | some k =>
    let (n, tot) := (bandit.lookup k).getD (0, 0)
    if n = 0 then 1 / 0
    else tot / Float.ofInt n + (2 * (Float.ofInt (max 1 tPulls)).log / Float.ofInt n).sqrt

/-- Rounds through the lists, one element of each.  Every round takes at least
    one element, so their number bounds the rounds. -/
def interleave.go {α : Type} : Nat → List (List α) → List α
  | 0, _ => []
  | n + 1, xss =>
    match xss.filterMap fun xs => xs.head?.map fun x => (x, xs.tail) with
    | [] => []
    | ps => ps.map Prod.fst ++ interleave.go n (ps.map Prod.snd)

def interleave {α : Type} (xss : List (List α)) : List α := interleave.go xss.flatten.length xss

def Decision.isSched : Decision → Bool
  | .schedNext _ => true
  | .deliverMsg _ | .fireFault _ => false

def Decision.isDeliver : Decision → Bool
  | .deliverMsg _ => true
  | .schedNext _ | .fireFault _ => false

/-- Up to `forkWidth` decisions: faults by their bound, the others in turn. -/
def chooseDecisions (cfg : SearchConfig) (bandit : Bandit) (tPulls : Int) (w : World P) (rs : List Decision) :
    List Decision :=
  let scheds := rs.filter Decision.isSched
  let rest := rs.filter fun d => !d.isSched
  let delivers := rest.filter Decision.isDeliver
  let faults := rest.filter fun d => !d.isDeliver
  let faultRanked := faults.insertionSort fun d d' => ucb bandit tPulls w d' ≤ ucb bandit tPulls w d
  (interleave [scheds, delivers, faultRanked]).take cfg.forkWidth.toNat

/-! ## The loop -/

/-- The key of the frontier: the reward, highest first, then the sequence
    number. -/
structure FrontierKey where
  reward : Float
  seq : Int

def FrontierKey.before (k k' : FrontierKey) : Bool :=
  decide (k'.reward < k.reward) || (k.reward == k'.reward && decide (k.seq ≤ k'.seq))

structure LoopState (P : Platform) where
  /-- in the order of the keys -/
  frontier : List (FrontierKey × Int × Snapshot P)
  counts : GlobalCounts
  bugs : List Bug
  seenFP : List UInt64
  seenBug : List Int
  bandit : Bandit
  beacons : KeySet SiteId
  report : AssertReport
  corpus : List (Snapshot P)
  cov : CovSet
  seq : Int
  runs : Int

def beaconBonus : Float := 5.0

def maxBugs : Nat := 20

/-- The beacons that a trace reached. -/
def beaconSites (evs : List SimEvent) : List SiteId :=
  evs.filterMap fun
    | .assert s .reachable true => some s
    | .assert s .sometimes true => some s
    | _ => none

/-- A fork's result goes into the loop state. -/
def integrate (seed : Seed) (cfg : SearchConfig) (parentId : Int) (s : LoopState P) (fr : ForkResult P) : LoopState P :=
  let newBeacons := (beaconSites fr.lookEvents).filter fun b => !s.beacons.member b
  let reward := novelty cfg.novBeta s.counts fr.lookCov + beaconBonus * Float.ofNat newBeacons.length
  let bandit := match fr.kind with
    | none => s.bandit
    | some k => AssocMap.insertWith (fun p q => (p.1 + q.1, p.2 + q.2)) k (1, reward) s.bandit
  let sBase :=
    { s with
      bandit
      report := foldAsserts fr.lookEvents s.report
      cov := mergeCov s.cov fr.lookCov
      counts := bumpCounts fr.childCov s.counts
      beacons := newBeacons.foldr KeySet.insert s.beacons }
  match fr.fail with
  | some reason =>
    let fp := pathId fr.failPath
    if sBase.seenBug.contains fp || decide (maxBugs ≤ sBase.bugs.length) then sBase
    else
      { sBase with
        bugs := ⟨⟨seed, [], fr.failPath⟩, reason, fr.failMoves⟩ :: sBase.bugs
        seenBug := fp :: sBase.seenBug }
  | none =>
    if sBase.seenFP.contains fr.fp then sBase
    else
      let child := ⟨fr.childWorld, fr.childPath, fr.childCov, fr.depth, some parentId⟩
      let entry := (⟨reward, sBase.seq⟩, pathId fr.childPath, child)
      { sBase with
        frontier := sBase.frontier.orderedInsert (fun e e' => e.1.before e'.1) entry
        seenFP := fr.fp :: sBase.seenFP
        seq := sBase.seq + 1
        corpus := if 0 < reward then child :: sBase.corpus else sBase.corpus }

/-- The loop of `search`: at most `n` expansions are left. -/
def search.loop (cfg : SearchConfig) (seed : Seed) (scen : Scenario P) : Nat → LoopState P → Except VarError (LoopState P)
  | 0, s => .ok s
  | n + 1, s =>
    match s.frontier with
    | [] => .ok s
    | (_, pid, snap) :: frontier' =>
      let chosen := chooseDecisions cfg s.bandit (s.runs + 1) snap.world (runnable snap.world)
      match chosen.mapM (evalFork scen cfg snap) with
      | .error e => .error e
      | .ok results =>
        search.loop cfg seed scen n
          (results.foldl (integrate seed cfg pid) { s with frontier := frontier', runs := s.runs + 1 })

def rootState (seed : Seed) (scen : Scenario P) : LoopState P :=
  let w0 := initWorld seed scen
  { frontier := [(⟨0, 0⟩, 0, ⟨w0, [], emptyCov, 0, none⟩)]
    counts := []
    bugs := []
    seenFP := [fingerprintWorld w0]
    seenBug := []
    bandit := []
    beacons := []
    report := emptyAssertReport
    corpus := []
    cov := emptyCov
    seq := 1
    runs := 0 }

/-- **A guided search campaign.** -/
def search (cfg : SearchConfig) (seed : Seed) (scen : Scenario P) : Except VarError (SearchOutcome P) :=
  (search.loop cfg seed scen cfg.maxRuns.toNat (rootState seed scen)).map fun s =>
    ⟨s.bugs.reverse, s.corpus.reverse, s.cov, s.report, s.runs⟩

end Wireform.Sim
