/-
  The window join of two streams (`Kafka.Streams.Internal.WindowJoin`).

  Each side keeps its records in a window store and joins a record with the other side's
  store.  In left and outer joins a record without a match is held in a store that both
  sides share, in the order of timestamp, side and key, until its window closes.

  * `process`: one record of one side;
  * `emitClosed`: the scan of the held records, which stops once a record of either side
    is still open;
  * `outputsAt`: what the join emits for the `n`-th record of an arrival order;
  * `outputsAt_map`: a join does the same whatever its values are.

  Timestamps and durations are 64-bit integers, and their sums wrap.  Neither store
  forgets anything.
-/
import Mathlib.Data.Prod.Lex
import Mathlib.Data.Sum.Basic
import Mathlib.Order.Lattice
import Mathlib.Tactic.Ring
import Wireform.Filing
import Wireform.MachineInt

namespace Wireform.Kafka.Streams.WindowJoin

/-- Which input of the join a record came in on. -/
inductive Side where
  | rightSide
  | leftSide
  deriving DecidableEq, Repr

namespace Side

def toNat : Side → Nat
  | rightSide => 0
  | leftSide => 1

theorem toNat_injective : Function.Injective toNat := fun s t h => by
  cases s <;> cases t <;> first | rfl | cases h

/-- The right side comes first. -/
instance : LinearOrder Side := LinearOrder.lift' toNat toNat_injective

def opposite : Side → Side
  | leftSide => rightSide
  | rightSide => leftSide

end Side

/-- A `Duration` is never negative. -/
structure JoinWindows where
  beforeMs : Int
  afterMs : Int
  gracePeriodMs : Int
  before_range : 0 ≤ beforeMs ∧ beforeMs < 2 ^ 63
  after_range : 0 ≤ afterMs ∧ afterMs < 2 ^ 63
  grace_range : 0 ≤ gracePeriodMs ∧ gracePeriodMs < 2 ^ 63

abbrev Headers := List (String × List UInt8)

structure Record (K V : Type) where
  recordKey : Option K
  recordValue : V
  recordTimestamp : Int
  recordHeaders : Headers
  deriving DecidableEq, Repr

variable {K : Type} [LinearOrder K] {VSelf VOther V1 V2 Vo : Type}

/-! ## Stores -/

abbrev WindowStore (K V : Type) := AssocMap (Int ×ₗ K) (List V)

/-- A held record: its timestamp, side and key. -/
abbrev OuterKey (K : Type) := Int ×ₗ Side ×ₗ K

def outerKey (okTs : Int) (okSide : Side) (okKey : K) : OuterKey K := toLex (okTs, toLex (okSide, okKey))

def okTs (key : OuterKey K) : Int := (ofLex key).1

def okSide (key : OuterKey K) : Side := (ofLex (ofLex key).2).1

def okKey (key : OuterKey K) : K := (ofLex (ofLex key).2).2

abbrev OuterStore (K V1 V2 : Type) := AssocMap (OuterKey K) (List (V1 ⊕ V2))

/-- Add to the values kept for `k` at `ts`. -/
def appendAt (ws : WindowStore K VSelf) (k : K) (v : VSelf) (ts : Int) : WindowStore K VSelf :=
  AssocMap.push (toLex (ts, k)) v ws

def wsFetchRange (ws : WindowStore K VOther) (k : K) (lo hi : Int) : WindowStore K VOther :=
  ws.filter fun e => decide (lo ≤ (ofLex e.1).1 ∧ (ofLex e.1).1 ≤ hi ∧ (ofLex e.1).2 = k)

/-- Everything kept for `k` in `[lo, hi]`, oldest first. -/
def fetchAll (ws : WindowStore K VOther) (k : K) (lo hi : Int) : List (Int × VOther) :=
  (wsFetchRange ws k lo hi).flatMap fun e => e.2.map fun v => ((ofLex e.1).1, v)

/-! ## One side -/

/-- One side of a window join. -/
structure SideConfig (VSelf VOther V1 V2 Vo : Type) where
  scSide : Side
  /-- How far before a record of this side its matches may be. -/
  scBack : Int
  /-- How far after. -/
  scAhead : Int
  scBefore : Int
  scAfter : Int
  scGrace : Int
  scJoin : VSelf → VOther → Vo
  /-- What this side emits for a record that nothing matched. -/
  scUnmatched : Option (VSelf → Vo)
  scHold : VSelf → V1 ⊕ V2
  /-- What a held record of either side emits once its window closes. -/
  scRender : V1 ⊕ V2 → Option Vo

/-- What a side is bound to. -/
structure Bound (K VSelf VOther V1 V2 : Type) where
  bSelf : WindowStore K VSelf
  bOther : WindowStore K VOther
  /-- Inner joins have none. -/
  bOuter : Option (OuterStore K V1 V2)
  bTime : Int

/-- The window of a held record has not closed at stream time `st`. -/
def stillOpen (cfg : SideConfig VSelf VOther V1 V2 Vo) (st : Int) (key : OuterKey K) : Bool :=
  decide (st ≤
    addInt (addInt (okTs key) (if okSide key = .leftSide then cfg.scAfter else cfg.scBefore)) cfg.scGrace)

/-- The held records that the scan finds closed. -/
def emitClosedGo (cfg : SideConfig VSelf VOther V1 V2 Vo) (st : Int) :
    Bool → Bool → OuterStore K V1 V2 → OuterStore K V1 V2
  | _, _, [] => []
  | leftOpen, rightOpen, e :: rest =>
    if leftOpen && rightOpen then []
    else if stillOpen cfg st e.1 then
      emitClosedGo cfg st (leftOpen || okSide e.1 = .leftSide) (rightOpen || okSide e.1 = .rightSide) rest
    else e :: emitClosedGo cfg st leftOpen rightOpen rest

/-- Emit, oldest first, the held records whose window has closed. -/
def emitClosed (cfg : SideConfig VSelf VOther V1 V2 Vo) (st : Int) (hs : Headers) (o : OuterStore K V1 V2) :
    OuterStore K V1 V2 × List (Record K Vo) :=
  let closed := emitClosedGo cfg st false false o
  ((closed.map Prod.fst).foldl (fun o key => AssocMap.erase key o) o,
    closed.flatMap fun e => e.2.filterMap fun hv =>
      (cfg.scRender hv).map fun out => ⟨some (okKey e.1), out, okTs e.1, hs⟩)

/-- A record without a match is held until its window closes, and emitted at once if
    its window has ended already. -/
def holdOrEmit (cfg : SideConfig VSelf VOther V1 V2 Vo) (st : Int) (k : K) (r : Record K VSelf) :
    Option (OuterStore K V1 V2) → Option (OuterStore K V1 V2) × List (Record K Vo)
  | outer =>
    match cfg.scUnmatched, outer with
    | none, _ => (outer, [])
    | some unmatched, none =>
      (none, [⟨some k, unmatched r.recordValue, r.recordTimestamp, r.recordHeaders⟩])
    | some unmatched, some o =>
      if st ≤ addInt r.recordTimestamp cfg.scAhead then
        (some (AssocMap.push (outerKey r.recordTimestamp cfg.scSide k) (cfg.scHold r.recordValue) o), [])
      else (some o, [⟨some k, unmatched r.recordValue, r.recordTimestamp, r.recordHeaders⟩])

/-- The record's window closed more than the grace period ago. -/
def late (cfg : SideConfig VSelf VOther V1 V2 Vo) (ts st : Int) : Bool :=
  decide (addInt (addInt ts cfg.scAhead) cfg.scGrace < st)

/-- At the stream time, emit what has closed. -/
def sweep (cfg : SideConfig VSelf VOther V1 V2 Vo) (ts st : Int) (hs : Headers) :
    Option (OuterStore K V1 V2) → Option (OuterStore K V1 V2) × List (Record K Vo)
  | none => (none, [])
  | some o => if ts = st then (some (emitClosed cfg st hs o).1, (emitClosed cfg st hs o).2) else (some o, [])

/-- The records of the other side that a record at `ts` joins. -/
def matchesOf (cfg : SideConfig VSelf VOther V1 V2 Vo) (other : WindowStore K VOther) (k : K) (ts : Int) :
    List (Int × VOther) :=
  fetchAll other k (max 0 (subInt ts cfg.scBack)) (max 0 (addInt ts cfg.scAhead))

/-- The held records of the other side that have found their match go. -/
def unhold (cfg : SideConfig VSelf VOther V1 V2 Vo) (k : K) (found : List (Int × VOther)) (o : OuterStore K V1 V2) :
    OuterStore K V1 V2 :=
  (found.map fun m => outerKey m.1 cfg.scSide.opposite k).foldl (fun o key => AssocMap.erase key o) o

/-- One record of a side; the record is kept even if it is dropped. -/
def process (cfg : SideConfig VSelf VOther V1 V2 Vo) (b : Bound K VSelf VOther V1 V2) (k : K) (r : Record K VSelf) :
    Bound K VSelf VOther V1 V2 × List (Record K Vo) :=
  let ts := r.recordTimestamp
  let self := appendAt b.bSelf k r.recordValue ts
  let st := max b.bTime ts
  if late cfg ts st then (⟨self, b.bOther, b.bOuter, st⟩, [])
  else
    let swept := sweep cfg ts st r.recordHeaders b.bOuter
    let found := matchesOf cfg b.bOther k ts
    let outer := swept.1.map (unhold cfg k found)
    let joined := found.map fun m => ⟨some k, cfg.scJoin r.recordValue m.2, max ts m.1, r.recordHeaders⟩
    let own := if found = [] then holdOrEmit cfg st k r outer else (outer, [])
    (⟨self, b.bOther, own.1, st⟩, swept.2 ++ joined ++ own.2)

/-! ## The join -/

/-- What a window join emits: matches, and (left and outer joins) unmatched records. -/
structure WindowJoinSpec (V1 V2 Vo : Type) where
  wjsJoin : V1 → V2 → Vo
  wjsLeftOnly : Option (V1 → Vo)
  wjsRightOnly : Option (V2 → Vo)

namespace WindowJoinSpec

def hasOuter (spec : WindowJoinSpec V1 V2 Vo) : Bool := spec.wjsLeftOnly.isSome || spec.wjsRightOnly.isSome

def render (spec : WindowJoinSpec V1 V2 Vo) : V1 ⊕ V2 → Option Vo
  | .inl v1 => spec.wjsLeftOnly.map (· v1)
  | .inr v2 => spec.wjsRightOnly.map (· v2)

end WindowJoinSpec

def leftConfig (jw : JoinWindows) (spec : WindowJoinSpec V1 V2 Vo) : SideConfig V1 V2 V1 V2 Vo where
  scSide := .leftSide
  scBack := jw.beforeMs
  scAhead := jw.afterMs
  scBefore := jw.beforeMs
  scAfter := jw.afterMs
  scGrace := jw.gracePeriodMs
  scJoin := spec.wjsJoin
  scUnmatched := spec.wjsLeftOnly
  scHold := Sum.inl
  scRender := spec.render

def rightConfig (jw : JoinWindows) (spec : WindowJoinSpec V1 V2 Vo) : SideConfig V2 V1 V1 V2 Vo where
  scSide := .rightSide
  scBack := jw.afterMs
  scAhead := jw.beforeMs
  scBefore := jw.beforeMs
  scAfter := jw.afterMs
  scGrace := jw.gracePeriodMs
  scJoin := flip spec.wjsJoin
  scUnmatched := spec.wjsRightOnly
  scHold := Sum.inr
  scRender := spec.render

/-- The stores and the stream time of a task. -/
structure State (K V1 V2 : Type) where
  leftStore : WindowStore K V1
  rightStore : WindowStore K V2
  outerStore : Option (OuterStore K V1 V2)
  streamTime : Int

def State.init (spec : WindowJoinSpec V1 V2 Vo) : State K V1 V2 where
  leftStore := []
  rightStore := []
  outerStore := if spec.hasOuter then some [] else none
  streamTime := -2 ^ 63

/-- A record without a key is skipped. -/
def step (jw : JoinWindows) (spec : WindowJoinSpec V1 V2 Vo) (s : State K V1 V2) (r : Record K (V1 ⊕ V2)) :
    State K V1 V2 × List (Record K Vo) :=
  match r.recordKey, r.recordValue with
  | none, _ => (s, [])
  | some k, .inl v =>
    let e := process (leftConfig jw spec) ⟨s.leftStore, s.rightStore, s.outerStore, s.streamTime⟩ k
      ⟨some k, v, r.recordTimestamp, r.recordHeaders⟩
    (⟨e.1.bSelf, e.1.bOther, e.1.bOuter, e.1.bTime⟩, e.2)
  | some k, .inr v =>
    let e := process (rightConfig jw spec) ⟨s.rightStore, s.leftStore, s.outerStore, s.streamTime⟩ k
      ⟨some k, v, r.recordTimestamp, r.recordHeaders⟩
    (⟨e.1.bOther, e.1.bSelf, e.1.bOuter, e.1.bTime⟩, e.2)

/-- The state before the `n`-th record. -/
def stateAt (jw : JoinWindows) (spec : WindowJoinSpec V1 V2 Vo) (arrivals : ℕ → Record K (V1 ⊕ V2)) :
    ℕ → State K V1 V2
  | 0 => State.init spec
  | n + 1 => (step jw spec (stateAt jw spec arrivals n) (arrivals n)).1

/-- What the `n`-th record makes the join emit. -/
def outputsAt (jw : JoinWindows) (spec : WindowJoinSpec V1 V2 Vo) (arrivals : ℕ → Record K (V1 ⊕ V2)) (n : ℕ) :
    List (Record K Vo) :=
  (step jw spec (stateAt jw spec arrivals n) (arrivals n)).2

/-! ## Other values -/

section

variable {VSelf' VOther' V1' V2' Vo' V W : Type} {f : VSelf → VSelf'} {g : VOther → VOther'} {f1 : V1 → V1'}
  {f2 : V2 → V2'} {h : Vo → Vo'} {cfg : SideConfig VSelf VOther V1 V2 Vo} {cfg' : SideConfig VSelf' VOther' V1' V2' Vo'}
  {spec : WindowJoinSpec V1 V2 Vo} {spec' : WindowJoinSpec V1' V2' Vo'}

def Record.map (f : V → W) (r : Record K V) : Record K W :=
  ⟨r.recordKey, f r.recordValue, r.recordTimestamp, r.recordHeaders⟩

def Bound.map (f : VSelf → VSelf') (g : VOther → VOther') (f1 : V1 → V1') (f2 : V2 → V2')
    (b : Bound K VSelf VOther V1 V2) : Bound K VSelf' VOther' V1' V2' where
  bSelf := AssocMap.mapLists f b.bSelf
  bOther := AssocMap.mapLists g b.bOther
  bOuter := b.bOuter.map (AssocMap.mapLists (Sum.map f1 f2))
  bTime := b.bTime

def State.map (f1 : V1 → V1') (f2 : V2 → V2') (s : State K V1 V2) : State K V1' V2' where
  leftStore := AssocMap.mapLists f1 s.leftStore
  rightStore := AssocMap.mapLists f2 s.rightStore
  outerStore := s.outerStore.map (AssocMap.mapLists (Sum.map f1 f2))
  streamTime := s.streamTime

/-- The two sides have the same windows, and their functions agree. -/
structure SideConfig.Agree (f : VSelf → VSelf') (g : VOther → VOther') (f1 : V1 → V1') (f2 : V2 → V2') (h : Vo → Vo')
    (cfg : SideConfig VSelf VOther V1 V2 Vo) (cfg' : SideConfig VSelf' VOther' V1' V2' Vo') : Prop where
  side : cfg'.scSide = cfg.scSide
  back : cfg'.scBack = cfg.scBack
  ahead : cfg'.scAhead = cfg.scAhead
  before : cfg'.scBefore = cfg.scBefore
  after : cfg'.scAfter = cfg.scAfter
  grace : cfg'.scGrace = cfg.scGrace
  join : ∀ x y, cfg'.scJoin (f x) (g y) = h (cfg.scJoin x y)
  unmatched : (cfg'.scUnmatched.map fun u x => u (f x)) = cfg.scUnmatched.map fun u x => h (u x)
  hold : ∀ x, cfg'.scHold (f x) = Sum.map f1 f2 (cfg.scHold x)
  render : ∀ z, cfg'.scRender (Sum.map f1 f2 z) = (cfg.scRender z).map h

structure WindowJoinSpec.Agree (f1 : V1 → V1') (f2 : V2 → V2') (h : Vo → Vo') (spec : WindowJoinSpec V1 V2 Vo)
    (spec' : WindowJoinSpec V1' V2' Vo') : Prop where
  join : ∀ x y, spec'.wjsJoin (f1 x) (f2 y) = h (spec.wjsJoin x y)
  leftOnly : (spec'.wjsLeftOnly.map fun u x => u (f1 x)) = spec.wjsLeftOnly.map fun u x => h (u x)
  rightOnly : (spec'.wjsRightOnly.map fun u x => u (f2 x)) = spec.wjsRightOnly.map fun u x => h (u x)

theorem fetchAll_map (ws : WindowStore K VOther) (k : K) (lo hi : Int) :
    fetchAll (AssocMap.mapLists g ws) k lo hi = (fetchAll ws k lo hi).map (Prod.map id g) := by
  have hrange : wsFetchRange (AssocMap.mapLists g ws) k lo hi = AssocMap.mapLists g (wsFetchRange ws k lo hi) :=
    AssocMap.filter_mapLists g
      (fun e : Int ×ₗ K => decide (lo ≤ (ofLex e).1 ∧ (ofLex e).1 ≤ hi ∧ (ofLex e).2 = k)) ws
  unfold fetchAll
  rw [hrange]
  simp [AssocMap.mapLists, List.flatMap_map, List.map_flatMap, Function.comp_def]

omit [LinearOrder K] in
theorem emitClosedGo_map (hc : SideConfig.Agree f g f1 f2 h cfg cfg') (st : Int) (leftOpen rightOpen : Bool)
    (o : OuterStore K V1 V2) :
    emitClosedGo cfg' st leftOpen rightOpen (AssocMap.mapLists (Sum.map f1 f2) o) =
      AssocMap.mapLists (Sum.map f1 f2) (emitClosedGo cfg st leftOpen rightOpen o) := by
  induction o generalizing leftOpen rightOpen with
  | nil => rfl
  | cons e o ih =>
    have hopen : stillOpen cfg' st e.1 = stillOpen cfg st e.1 := by
      unfold stillOpen
      rw [hc.after, hc.before, hc.grace]
    simp only [AssocMap.mapLists, List.map_cons] at ih ⊢
    unfold emitClosedGo
    simp only [hopen]
    split_ifs
    · rfl
    · exact ih _ _
    · rw [List.map_cons, ih]

theorem emitClosed_map (hc : SideConfig.Agree f g f1 f2 h cfg cfg') (st : Int) (hs : Headers) (o : OuterStore K V1 V2) :
    emitClosed cfg' st hs (AssocMap.mapLists (Sum.map f1 f2) o) =
      (emitClosed cfg st hs o).map (AssocMap.mapLists (Sum.map f1 f2)) (List.map (Record.map h)) := by
  unfold emitClosed
  rw [emitClosedGo_map hc]
  simp only [AssocMap.keys_mapLists, AssocMap.foldl_erase_mapLists, Prod.map_apply, Prod.mk.injEq, true_and]
  simp [AssocMap.mapLists, List.flatMap_map, List.map_flatMap, List.filterMap_map, List.map_filterMap, hc.render,
    Function.comp_def, Record.map]

theorem sweep_map (hc : SideConfig.Agree f g f1 f2 h cfg cfg') (ts st : Int) (hs : Headers)
    (o : Option (OuterStore K V1 V2)) :
    sweep cfg' ts st hs (o.map (AssocMap.mapLists (Sum.map f1 f2))) =
      (sweep cfg ts st hs o).map (Option.map (AssocMap.mapLists (Sum.map f1 f2))) (List.map (Record.map h)) := by
  cases o with
  | none => rfl
  | some o =>
    simp only [Option.map_some, sweep, emitClosed_map hc]
    split_ifs
    · rfl
    · rfl

theorem matchesOf_map (hc : SideConfig.Agree f g f1 f2 h cfg cfg') (ws : WindowStore K VOther) (k : K) (ts : Int) :
    matchesOf cfg' (AssocMap.mapLists g ws) k ts = (matchesOf cfg ws k ts).map (Prod.map id g) := by
  unfold matchesOf
  rw [fetchAll_map, hc.back, hc.ahead]

theorem unhold_map (hc : SideConfig.Agree f g f1 f2 h cfg cfg') (k : K) (found : List (Int × VOther))
    (o : OuterStore K V1 V2) :
    unhold cfg' k (found.map (Prod.map id g)) (AssocMap.mapLists (Sum.map f1 f2) o) =
      AssocMap.mapLists (Sum.map f1 f2) (unhold cfg k found o) := by
  unfold unhold
  rw [List.map_map, hc.side, ← AssocMap.foldl_erase_mapLists]
  rfl

theorem holdOrEmit_map (hc : SideConfig.Agree f g f1 f2 h cfg cfg') (st : Int) (k : K) (r : Record K VSelf)
    (o : Option (OuterStore K V1 V2)) :
    holdOrEmit cfg' st k (r.map f) (o.map (AssocMap.mapLists (Sum.map f1 f2))) =
      (holdOrEmit cfg st k r o).map (Option.map (AssocMap.mapLists (Sum.map f1 f2))) (List.map (Record.map h)) := by
  have hu := hc.unmatched
  unfold holdOrEmit
  cases hl : cfg.scUnmatched with
  | none =>
    rw [hl, Option.map_none, Option.map_eq_none_iff] at hu
    rw [hu]
    rfl
  | some u =>
    rw [hl, Option.map_some, Option.map_eq_some_iff] at hu
    obtain ⟨u', hu', heq⟩ := hu
    have hval : ∀ x, u' (f x) = h (u x) := fun x => congrFun heq x
    rw [hu']
    cases o with
    | none => simp [Record.map, hval]
    | some o =>
      simp only [Option.map_some, Record.map, hc.ahead, hc.side, hc.hold, hval]
      split_ifs
      · simp
      · simp [Record.map]

/-- **A side does the same whatever its values are.** -/
theorem process_map (hc : SideConfig.Agree f g f1 f2 h cfg cfg') (b : Bound K VSelf VOther V1 V2) (k : K)
    (r : Record K VSelf) :
    process cfg' (b.map f g f1 f2) k (r.map f) =
      (process cfg b k r).map (Bound.map f g f1 f2) (List.map (Record.map h)) := by
  have hlate : ∀ ts st, late cfg' ts st = late cfg ts st := fun ts st => by
    unfold late
    rw [hc.ahead, hc.grace]
  have hself : appendAt (AssocMap.mapLists f b.bSelf) k (f r.recordValue) r.recordTimestamp =
      AssocMap.mapLists f (appendAt b.bSelf k r.recordValue r.recordTimestamp) := AssocMap.push_mapLists f _ _ _
  have hfound := matchesOf_map hc b.bOther k r.recordTimestamp
  have hswept := sweep_map hc r.recordTimestamp (max b.bTime r.recordTimestamp) r.recordHeaders b.bOuter
  have hunheld : ∀ (found : List (Int × VOther)) (o : Option (OuterStore K V1 V2)),
      (o.map (AssocMap.mapLists (Sum.map f1 f2))).map (unhold cfg' k (found.map (Prod.map id g))) =
        (o.map (unhold cfg k found)).map (AssocMap.mapLists (Sum.map f1 f2)) := fun found o => by
    cases o with
    | none => rfl
    | some o => exact congrArg some (unhold_map hc k found o)
  have hown := holdOrEmit_map (K := K) hc (max b.bTime r.recordTimestamp) k r
  unfold process
  simp only [Bound.map, Record.map, hlate, hself, hfound, hswept, Prod.map_fst, Prod.map_snd, hunheld,
    List.map_eq_nil_iff] at hown ⊢
  split_ifs with hl hn
  · rfl
  · rw [hown]
    simp [hn, Bound.map]
  · simp [Bound.map, Function.comp_def, hc.join, Record.map]

theorem WindowJoinSpec.Agree.render (hs : WindowJoinSpec.Agree f1 f2 h spec spec') (z : V1 ⊕ V2) :
    spec'.render (Sum.map f1 f2 z) = (spec.render z).map h := by
  cases z with
  | inl x => simpa [WindowJoinSpec.render, Function.comp_def] using congrArg (Option.map (· x)) hs.leftOnly
  | inr x => simpa [WindowJoinSpec.render, Function.comp_def] using congrArg (Option.map (· x)) hs.rightOnly

theorem WindowJoinSpec.Agree.left (hs : WindowJoinSpec.Agree f1 f2 h spec spec') (jw : JoinWindows) :
    SideConfig.Agree f1 f2 f1 f2 h (leftConfig jw spec) (leftConfig jw spec') :=
  ⟨rfl, rfl, rfl, rfl, rfl, rfl, hs.join, hs.leftOnly, fun _ => rfl, hs.render⟩

theorem WindowJoinSpec.Agree.right (hs : WindowJoinSpec.Agree f1 f2 h spec spec') (jw : JoinWindows) :
    SideConfig.Agree f2 f1 f1 f2 h (rightConfig jw spec) (rightConfig jw spec') :=
  ⟨rfl, rfl, rfl, rfl, rfl, rfl, fun x y => hs.join y x, hs.rightOnly, fun _ => rfl, hs.render⟩

theorem WindowJoinSpec.Agree.hasOuter (hs : WindowJoinSpec.Agree f1 f2 h spec spec') :
    spec'.hasOuter = spec.hasOuter := by
  have hl := congrArg Option.isSome hs.leftOnly
  have hr := congrArg Option.isSome hs.rightOnly
  simp only [Option.isSome_map] at hl hr
  unfold WindowJoinSpec.hasOuter
  rw [hl, hr]

theorem step_map (hs : WindowJoinSpec.Agree f1 f2 h spec spec') (jw : JoinWindows) (s : State K V1 V2)
    (r : Record K (V1 ⊕ V2)) :
    step jw spec' (s.map f1 f2) (r.map (Sum.map f1 f2)) =
      (step jw spec s r).map (State.map f1 f2) (List.map (Record.map h)) := by
  obtain ⟨key, v, ts, headers⟩ := r
  cases key with
  | none => rfl
  | some k =>
    cases v with
    | inl v =>
      have hp := process_map (hs.left jw) ⟨s.leftStore, s.rightStore, s.outerStore, s.streamTime⟩ k ⟨some k, v, ts, headers⟩
      simp only [Bound.map, Record.map] at hp
      simp only [step, Record.map, State.map, Sum.map_inl, hp]
      rfl
    | inr v =>
      have hp := process_map (hs.right jw) ⟨s.rightStore, s.leftStore, s.outerStore, s.streamTime⟩ k ⟨some k, v, ts, headers⟩
      simp only [Bound.map, Record.map] at hp
      simp only [step, Record.map, State.map, Sum.map_inr, hp]
      rfl

theorem stateAt_map (hs : WindowJoinSpec.Agree f1 f2 h spec spec') (jw : JoinWindows)
    (arrivals : ℕ → Record K (V1 ⊕ V2)) (n : ℕ) :
    stateAt jw spec' (fun i => (arrivals i).map (Sum.map f1 f2)) n = (stateAt jw spec arrivals n).map f1 f2 := by
  induction n with
  | zero =>
    simp only [stateAt, State.init, State.map, hs.hasOuter]
    split_ifs
    · rfl
    · rfl
  | succ n ih => rw [stateAt, ih, step_map hs, stateAt]; rfl

/-- **A join does the same whatever its values are.** -/
theorem outputsAt_map (hs : WindowJoinSpec.Agree f1 f2 h spec spec') (jw : JoinWindows)
    (arrivals : ℕ → Record K (V1 ⊕ V2)) (n : ℕ) :
    outputsAt jw spec' (fun i => (arrivals i).map (Sum.map f1 f2)) n =
      (outputsAt jw spec arrivals n).map (Record.map h) := by
  unfold outputsAt
  rw [stateAt_map hs, step_map hs]
  rfl

end

end Wireform.Kafka.Streams.WindowJoin
