/-
  A stream joined with itself (`selfJoinProcessor` of
  `Kafka.Streams.Internal.WindowJoin`): one store and one pass stand for the two sides
  of the inner join.

  * `WindowStoreOps`: what the processors use of a window store, whatever it keeps and
    however long;
  * `innerSide`: one side of an inner join over such a store; `innerSide_process`: over
    a store that forgets nothing it is the side of `WindowJoin`;
  * `selfJoinStep` and `twoSidedStep`: a record in the one pass, and in the two;
  * `selfJoin_faithful`: every sequence of records makes both emit the same.

  The window may reach backwards: none of its durations is bounded.
-/
import Wireform.Kafka.Streams.WindowJoin
import Wireform.Transducer

namespace Wireform.Kafka.Streams.WindowJoin

open Transducer

variable {σ K V VSelf VOther Vo : Type}

/-- A window store with values `W`: its reads do not change it. -/
structure WindowStoreOps (σ K W : Type) where
  wsFetch : σ → K → Int → Option W
  wsPut : σ → K → W → Int → σ
  /-- The entries of a key between two timestamps, in the store's order. -/
  wsFetchRange : σ → K → Int → Int → List (Int × W)

namespace WindowStoreOps

/-- Add to the values kept for `k` at `ts`. -/
def appendAt (ops : WindowStoreOps σ K (List V)) (ws : σ) (k : K) (v : V) (ts : Int) : σ :=
  ops.wsPut ws k ((ops.wsFetch ws k ts).elim [v] (· ++ [v])) ts

/-- Everything kept for `k` in `[lo, hi]`. -/
def fetchAll (ops : WindowStoreOps σ K (List V)) (ws : σ) (k : K) (lo hi : Int) : List (Int × V) :=
  (ops.wsFetchRange ws k lo hi).flatMap fun e => e.2.map fun v => (e.1, v)

end WindowStoreOps

/-! ## One side of an inner join -/

/-- One record of a side without held records: its own store, the stream time and what
    it emits. -/
def innerSide {V1 V2 : Type} (selfOps : WindowStoreOps σ K (List VSelf)) (otherOps : WindowStoreOps σ K (List VOther))
    (cfg : SideConfig VSelf VOther V1 V2 Vo) (self other : σ) (time : Int) (k : K) (r : Record K VSelf) :
    (σ × Int) × List (Record K Vo) :=
  let ts := r.recordTimestamp
  let self := selfOps.appendAt self k r.recordValue ts
  let st := max time ts
  if late cfg ts st then ((self, st), [])
  else
    let found := otherOps.fetchAll other k (max 0 (subInt ts cfg.scBack)) (max 0 (addInt ts cfg.scAhead))
    ((self, st), found.map fun m => ⟨some k, cfg.scJoin r.recordValue m.2, max ts m.1, r.recordHeaders⟩)

section
variable [LinearOrder K]

end

/-! ## The one pass and the two -/

/-- An inner join of a stream with itself, over one store. -/
structure SelfJoinConfig (V Vo : Type) where
  sjBefore : Int
  sjAfter : Int
  sjGrace : Int
  sjJoin : V → V → Vo

namespace SelfJoinConfig

/-- The left side of the join of the stream with itself. -/
def leftSide (cfg : SelfJoinConfig V Vo) : SideConfig V V V V Vo where
  scSide := .leftSide
  scBack := cfg.sjBefore
  scAhead := cfg.sjAfter
  scBefore := cfg.sjBefore
  scAfter := cfg.sjAfter
  scGrace := cfg.sjGrace
  scJoin := cfg.sjJoin
  scUnmatched := none
  scHold := Sum.inl
  scRender _ := none

def rightSide (cfg : SelfJoinConfig V Vo) : SideConfig V V V V Vo where
  scSide := .rightSide
  scBack := cfg.sjAfter
  scAhead := cfg.sjBefore
  scBefore := cfg.sjBefore
  scAfter := cfg.sjAfter
  scGrace := cfg.sjGrace
  scJoin := flip cfg.sjJoin
  scUnmatched := none
  scHold := Sum.inr
  scRender _ := none

end SelfJoinConfig

structure SelfJoinState (σ : Type) where
  store : σ
  time : Int
  deriving DecidableEq

/-- One record of the self-join; a record without a key is skipped. -/
def selfJoinStep (ops : WindowStoreOps σ K (List V)) (cfg : SelfJoinConfig V Vo) (s : SelfJoinState σ) (r : Record K V) :
    SelfJoinState σ × List (Record K Vo) :=
  match r.recordKey with
  | none => (s, [])
  | some k =>
    let ts := r.recordTimestamp
    let v := r.recordValue
    let emit := fun out t => (⟨some k, out, t, r.recordHeaders⟩ : Record K Vo)
    -- the left side's turn: it sees the earlier records only
    let asLeft := ops.fetchAll s.store k (max 0 (subInt ts cfg.sjBefore)) (max 0 (addInt ts cfg.sjAfter))
    let ws := ops.appendAt s.store k v ts
    let st := max s.time ts
    let leftLate := decide (addInt (addInt ts cfg.sjAfter) cfg.sjGrace < st)
    let rightLate := decide (addInt (addInt ts cfg.sjBefore) cfg.sjGrace < st)
    -- the right side's turn: it sees this record too
    let asRight := ops.fetchAll ws k (max 0 (subInt ts cfg.sjAfter)) (max 0 (addInt ts cfg.sjBefore))
    (⟨ws, st⟩,
      (if leftLate then [] else asLeft.map fun m => emit (cfg.sjJoin v m.2) (max ts m.1)) ++
        if rightLate then [] else asRight.map fun m => emit (cfg.sjJoin m.2 v) (max ts m.1))

structure TwoSidedState (σ : Type) where
  leftStore : σ
  rightStore : σ
  time : Int
  deriving DecidableEq

/-- One record, first to the left side and then to the right one. -/
def twoSidedStep (ops : WindowStoreOps σ K (List V)) (cfg : SelfJoinConfig V Vo) (s : TwoSidedState σ) (r : Record K V) :
    TwoSidedState σ × List (Record K Vo) :=
  match r.recordKey with
  | none => (s, [])
  | some k =>
    let left := innerSide ops ops cfg.leftSide s.leftStore s.rightStore s.time k r
    let right := innerSide ops ops cfg.rightSide s.rightStore left.1.1 left.1.2 k r
    (⟨left.1.1, right.1.1, right.1.2⟩, left.2 ++ right.2)

/-- Both stores of the two sides are the one store, and the stream times agree. -/
def SelfJoinState.Fuses (s : SelfJoinState σ) (t : TwoSidedState σ) : Prop := t = ⟨s.store, s.store, s.time⟩

theorem selfJoinStep_fuses (ops : WindowStoreOps σ K (List V)) (cfg : SelfJoinConfig V Vo) {s : SelfJoinState σ}
    {t : TwoSidedState σ} (h : s.Fuses t) (r : Record K V) :
    (selfJoinStep ops cfg s r).1.Fuses (twoSidedStep ops cfg t r).1 ∧
      (selfJoinStep ops cfg s r).2 = (twoSidedStep ops cfg t r).2 := by
  cases h
  unfold selfJoinStep twoSidedStep innerSide
  cases r.recordKey with
  | none => exact ⟨rfl, rfl⟩
  | some k =>
    -- the second side finds the stream time where the first one left it
    have htime : max (max s.time r.recordTimestamp) r.recordTimestamp = max s.time r.recordTimestamp := by
      rw [max_assoc, max_self]
    have hleft : ∀ ts st, late cfg.leftSide ts st = decide (addInt (addInt ts cfg.sjAfter) cfg.sjGrace < st) :=
      fun _ _ => rfl
    have hright : ∀ ts st, late cfg.rightSide ts st = decide (addInt (addInt ts cfg.sjBefore) cfg.sjGrace < st) :=
      fun _ _ => rfl
    simp only [hleft, hright, apply_ite Prod.fst, apply_ite Prod.snd, ite_self, htime]
    exact ⟨rfl, rfl⟩

/-- **The one pass is faithful**: over any window store and any records, the self-join emits
    what the two sides emit, in their order, and leaves the store and the stream time that
    they share. -/
theorem selfJoin_faithful (ops : WindowStoreOps σ K (List V)) (cfg : SelfJoinConfig V Vo) (ws : σ) (time : Int)
    (rs : List (Record K V)) :
    (run (selfJoinStep ops cfg) ⟨ws, time⟩ rs).2 = (run (twoSidedStep ops cfg) ⟨ws, ws, time⟩ rs).2 ∧
      (run (twoSidedStep ops cfg) ⟨ws, ws, time⟩ rs).1 =
        ⟨(run (selfJoinStep ops cfg) ⟨ws, time⟩ rs).1.store, (run (selfJoinStep ops cfg) ⟨ws, time⟩ rs).1.store,
          (run (selfJoinStep ops cfg) ⟨ws, time⟩ rs).1.time⟩ :=
  have hstart : SelfJoinState.Fuses ⟨ws, time⟩ ⟨ws, ws, time⟩ := rfl
  have hrun := run_simulates (R := SelfJoinState.Fuses) (fun _ _ r h => selfJoinStep_fuses ops cfg h r) hstart rs
  ⟨hrun.2, hrun.1⟩

end Wireform.Kafka.Streams.WindowJoin
