/-
  The watermark coordinator of a topology (`Kafka.Streams.Watermark`).

  Every source reports the timestamps of its records, and the coordinator publishes the
  smallest watermark of the sources that are live: not marked idle, or not for as long
  as the idle timeout.

  * `runGenerator`: how a watermark follows the timestamps;
  * `apply`: one operation; `apply_source`: it keeps the sources, and raises no watermark
    but the one of a source that reports;
  * `ComesBack`, `LastLeaves`: a source that had timed out is live again and behind; no
    live source is left;
  * `effectiveWatermark_falls_iff`: the published watermark falls exactly at such steps.
-/
import Mathlib
import Wireform.AssocMap
import Wireform.MachineInt

namespace Wireform.Kafka.Streams.Watermark

/-- Milliseconds, as a 64-bit integer. -/
abbrev Timestamp := {t : Int // InRange t}

abbrev Duration := {d : Int // InRange d}

/-- Timestamps are compared as the integers that they are. -/
instance : DecidableLT Timestamp := fun a b => Int.decLt a.1 b.1

abbrev SourceId := String

def noTimestamp : Timestamp := ⟨-1, by unfold InRange; omega⟩

def minTimestamp : Timestamp := ⟨-2 ^ 63, by unfold InRange; omega⟩

theorem minTimestamp_le (t : Timestamp) : minTimestamp ≤ t := t.2.1

theorem subInt_inRange (x y : Int) : InRange (subInt x y) := wrap_inRange _

def addDuration (t : Timestamp) (d : Duration) : Timestamp := ⟨addInt t.1 d.1, addInt_inRange _ _⟩

/-! ## Strategies -/

/-- How the watermark advances with a record. -/
inductive WatermarkGenerator where
  | monotonicTimestamps
  | boundedOutOfOrderness (lag : Duration)
  | noWatermarkGen
  | customGenerator (label : String) (f : Timestamp → Timestamp → Timestamp)

structure WatermarkStrategy where
  wsGenerator : WatermarkGenerator

def runGenerator (gen : WatermarkGenerator) (prev t : Timestamp) : Timestamp :=
  match gen with
  | .monotonicTimestamps => if t > prev then t else prev
  | .boundedOutOfOrderness lag =>
    let cand : Timestamp := ⟨subInt t.1 lag.1, subInt_inRange _ _⟩
    if cand > prev then cand else prev
  | .noWatermarkGen => noTimestamp
  | .customGenerator _ f => f prev t

def runStrategy (s : WatermarkStrategy) : Timestamp → Timestamp → Timestamp := runGenerator s.wsGenerator

/-- One of the two strategies that take the timestamps of records. -/
def WatermarkStrategy.Ordinary (s : WatermarkStrategy) : Prop :=
  s.wsGenerator = .monotonicTimestamps ∨ ∃ lag, s.wsGenerator = .boundedOutOfOrderness lag

theorem le_runStrategy {s : WatermarkStrategy} (hs : s.Ordinary) (prev t : Timestamp) : prev ≤ runStrategy s prev t := by
  unfold runStrategy
  rcases hs with hg | ⟨lag, hg⟩
  · rw [hg, runGenerator]
    split_ifs with h
    · exact le_of_lt h
    · exact le_rfl
  · rw [hg]
    show prev ≤ if prev < _ then _ else prev
    split_ifs with h
    · exact le_of_lt h
    · exact le_rfl

/-! ## The coordinator -/

structure SourceState where
  sstWatermark : Timestamp
  sstStrategy : WatermarkStrategy
  /-- Since when the source has been marked idle. -/
  sstIdleSince : Option Timestamp

/-- Idle as of `wc`; a source that is idle already stays so since then. -/
def SourceState.idleFrom (s : SourceState) (wc : Timestamp) : SourceState :=
  match s.sstIdleSince with
  | some _ => s
  | none => { s with sstIdleSince := some wc }

theorem SourceState.idleFrom_watermark (s : SourceState) (wc : Timestamp) :
    (s.idleFrom wc).sstWatermark = s.sstWatermark := by
  unfold idleFrom
  split
  · rfl
  · rfl

theorem SourceState.idleFrom_strategy (s : SourceState) (wc : Timestamp) :
    (s.idleFrom wc).sstStrategy = s.sstStrategy := by
  unfold idleFrom
  split
  · rfl
  · rfl

structure WatermarkCoordinator where
  wcSources : AssocMap SourceId SourceState
  wcIdleAfter : Duration
  wcWallClock : Timestamp
  ascending : wcSources.Ascending

namespace WatermarkCoordinator

/-- An empty coordinator. -/
def newWatermarkCoordinator (idle : Duration) : WatermarkCoordinator where
  wcSources := []
  wcIdleAfter := idle
  wcWallClock := minTimestamp
  ascending := .nil

/-- Registering a source again resets its state. -/
def registerSource (coord : WatermarkCoordinator) (sid : SourceId) (strat : WatermarkStrategy) :
    WatermarkCoordinator :=
  { coord with
    wcSources := AssocMap.insert sid ⟨minTimestamp, strat, none⟩ coord.wcSources
    ascending := coord.ascending.insert _ _ }

/-- The new watermark of the source is returned too. -/
def reportRecord (coord : WatermarkCoordinator) (sid : SourceId) (recordTs : Timestamp) :
    WatermarkCoordinator × Timestamp :=
  match AssocMap.lookup sid coord.wcSources with
  | none => (coord, minTimestamp)
  | some s =>
    let new := runStrategy s.sstStrategy s.sstWatermark recordTs
    ({ coord with
        wcSources := AssocMap.insert sid { s with sstWatermark := new, sstIdleSince := none } coord.wcSources
        ascending := coord.ascending.insert _ _ }, new)

attribute [grind =] reportRecord

/-- Idle as of now. -/
def markIdle (coord : WatermarkCoordinator) (sid : SourceId) : WatermarkCoordinator :=
  { coord with
    wcSources := AssocMap.adjust (·.idleFrom coord.wcWallClock) sid coord.wcSources
    ascending := coord.ascending.adjust _ _ }

def markActive (coord : WatermarkCoordinator) (sid : SourceId) : WatermarkCoordinator :=
  { coord with
    wcSources := AssocMap.adjust (fun s => { s with sstIdleSince := none }) sid coord.wcSources
    ascending := coord.ascending.adjust _ _ }

def advanceWallClock (coord : WatermarkCoordinator) (t : Timestamp) : WatermarkCoordinator :=
  { coord with wcWallClock := t }

def isLive (coord : WatermarkCoordinator) (s : SourceState) : Bool :=
  match s.sstIdleSince with
  | none => true
  | some t0 => decide (coord.wcWallClock < addDuration t0 coord.wcIdleAfter)

attribute [grind =] isLive

/-- The watermarks of the live sources. -/
def lives (coord : WatermarkCoordinator) : List Timestamp :=
  ((coord.wcSources.map Prod.snd).filter coord.isLive).map (·.sstWatermark)

/-- The smallest watermark of a live source; `minTimestamp` where none is live. -/
def currentEffectiveWatermark (coord : WatermarkCoordinator) : Timestamp := coord.lives.min?.getD minTimestamp

/-! ## The published watermark -/

section
variable {coord : WatermarkCoordinator}

theorem mem_lives {t : Timestamp} : t ∈ coord.lives ↔
    ∃ sid s, AssocMap.lookup sid coord.wcSources = some s ∧ coord.isLive s ∧ s.sstWatermark = t := by
  simp only [lives, List.mem_map, List.mem_filter]
  constructor
  · rintro ⟨s, ⟨⟨⟨sid, s'⟩, hmem, rfl⟩, hlive⟩, rfl⟩
    exact ⟨sid, s', (coord.ascending.mem_iff sid s').1 hmem, hlive, rfl⟩
  · rintro ⟨sid, s, hl, hlive, rfl⟩
    exact ⟨s, ⟨⟨(sid, s), (coord.ascending.mem_iff sid s).2 hl, rfl⟩, hlive⟩, rfl⟩

theorem effective_of_none (h : coord.lives = []) : coord.currentEffectiveWatermark = minTimestamp := by
  rw [currentEffectiveWatermark, h]
  rfl

theorem effective_mem (h : coord.lives ≠ []) : coord.currentEffectiveWatermark ∈ coord.lives := by
  obtain ⟨t, ht⟩ := Option.isSome_iff_exists.1 (List.isSome_min?_of_ne_nil h)
  rw [currentEffectiveWatermark, ht]
  exact List.min?_mem ht

/-- It is behind every live source. -/
theorem effective_le {t : Timestamp} (h : t ∈ coord.lives) : coord.currentEffectiveWatermark ≤ t := by
  obtain ⟨m, hm⟩ := Option.isSome_iff_exists.1 (List.isSome_min?_of_mem h)
  rw [currentEffectiveWatermark, hm]
  exact (List.min?_eq_some_iff.1 hm).2 t h

end

/-! ## Operations -/

inductive Op where
  | reportRecord (sid : SourceId) (recordTs : Timestamp)
  | markIdle (sid : SourceId)
  | markActive (sid : SourceId)
  | advanceWallClock (t : Timestamp)

def apply (coord : WatermarkCoordinator) : Op → WatermarkCoordinator
  | .reportRecord sid recordTs => (coord.reportRecord sid recordTs).1
  | .markIdle sid => coord.markIdle sid
  | .markActive sid => coord.markActive sid
  | .advanceWallClock t => coord.advanceWallClock t

def after (coord : WatermarkCoordinator) (ops : List Op) : WatermarkCoordinator := ops.foldl apply coord

/-- The wall clock never goes back. -/
def ClockForward : WatermarkCoordinator → List Op → Prop
  | _, [] => True
  | coord, op :: ops => (∀ t, op = .advanceWallClock t → coord.wcWallClock ≤ t) ∧ ClockForward (coord.apply op) ops

/-- Every source has an ordinary strategy. -/
def Ordinary (coord : WatermarkCoordinator) : Prop :=
  ∀ sid s, AssocMap.lookup sid coord.wcSources = some s → s.sstStrategy.Ordinary

/-- The step makes a source live again that had timed out, with a watermark behind the
    published one. -/
def ComesBack (coord : WatermarkCoordinator) (op : Op) : Prop :=
  ∃ sid s, AssocMap.lookup sid coord.wcSources = some s ∧ ¬ coord.isLive s ∧
    (op = .markActive sid ∧ s.sstWatermark < coord.currentEffectiveWatermark ∨
      ∃ t, op = .reportRecord sid t ∧ runStrategy s.sstStrategy s.sstWatermark t < coord.currentEffectiveWatermark)

/-- The step leaves no live source, and there was one with a watermark. -/
def LastLeaves (coord : WatermarkCoordinator) (op : Op) : Prop :=
  (coord.apply op).lives = [] ∧ minTimestamp < coord.currentEffectiveWatermark

/-! ## Steps -/

/-- What an operation does to one source. -/
def sourceAfter (coord : WatermarkCoordinator) (sid : SourceId) (s : SourceState) : Op → SourceState
  | .reportRecord sid₁ t =>
    if sid = sid₁ then
      { s with sstWatermark := runStrategy s.sstStrategy s.sstWatermark t, sstIdleSince := none }
    else s
  | .markIdle sid₁ => if sid = sid₁ then s.idleFrom coord.wcWallClock else s
  | .markActive sid₁ => if sid = sid₁ then { s with sstIdleSince := none } else s
  | .advanceWallClock _ => s

attribute [grind =] sourceAfter

section
variable {coord : WatermarkCoordinator} {sid : SourceId} {s : SourceState}

theorem lookup_adjust_of {f : SourceState → SourceState} {sid₁ : SourceId} {m : AssocMap SourceId SourceState}
    (hl : AssocMap.lookup sid m = some s) :
    AssocMap.lookup sid (AssocMap.adjust f sid₁ m) = some (if sid = sid₁ then f s else s) := by
  rw [AssocMap.lookup_adjust]
  split_ifs with h
  · rw [← h, hl]
    rfl
  · exact hl

theorem lookup_apply (op : Op) (hl : AssocMap.lookup sid coord.wcSources = some s) :
    AssocMap.lookup sid (coord.apply op).wcSources = some (coord.sourceAfter sid s op) := by
  cases op with
  | reportRecord sid₁ t =>
    show AssocMap.lookup sid (coord.reportRecord sid₁ t).1.wcSources = some (if sid = sid₁ then _ else s)
    unfold reportRecord
    cases hr : AssocMap.lookup sid₁ coord.wcSources with
    | none =>
      rw [if_neg fun h => by rw [h, hr] at hl; cases hl]
      exact hl
    | some s₁ =>
      show AssocMap.lookup sid (AssocMap.insert sid₁ _ coord.wcSources) = _
      rw [AssocMap.lookup_insert]
      split_ifs with h
      · rw [← h, hl] at hr
        cases hr
        rfl
      · exact hl
  | markIdle sid₁ => exact lookup_adjust_of hl
  | markActive sid₁ => exact lookup_adjust_of hl
  | advanceWallClock t => exact hl

/-- The sources are the same. -/
theorem lookup_apply_none (op : Op) (hl : AssocMap.lookup sid coord.wcSources = none) :
    AssocMap.lookup sid (coord.apply op).wcSources = none := by
  have hadjust : ∀ f sid₁, AssocMap.lookup sid (AssocMap.adjust f sid₁ coord.wcSources) = none := fun f sid₁ => by
    rw [AssocMap.lookup_adjust]
    split_ifs with h
    · rw [← h, hl]
      rfl
    · exact hl
  cases op with
  | reportRecord sid₁ t =>
    show AssocMap.lookup sid (coord.reportRecord sid₁ t).1.wcSources = none
    unfold reportRecord
    cases hr : AssocMap.lookup sid₁ coord.wcSources with
    | none => exact hl
    | some s₁ =>
      show AssocMap.lookup sid (AssocMap.insert sid₁ _ coord.wcSources) = none
      rw [AssocMap.lookup_insert, if_neg fun h => by rw [h, hr] at hl; cases hl]
      exact hl
  | markIdle sid₁ => exact hadjust _ _
  | markActive sid₁ => exact hadjust _ _
  | advanceWallClock t => exact hl

/-- A step lowers no watermark. -/
theorem le_sourceAfter (hs : s.sstStrategy.Ordinary) (op : Op) : s.sstWatermark ≤ (coord.sourceAfter sid s op).sstWatermark := by
  unfold sourceAfter
  split
  · split_ifs
    · exact le_runStrategy hs _ _
    · exact le_rfl
  · split_ifs
    · exact (s.idleFrom_watermark _).ge
    · exact le_rfl
  · split_ifs
    · exact le_rfl
    · exact le_rfl
  · exact le_rfl

theorem sourceAfter_strategy (op : Op) : (coord.sourceAfter sid s op).sstStrategy = s.sstStrategy := by
  unfold sourceAfter
  split
  · split_ifs
    · rfl
    · rfl
  · split_ifs
    · exact s.idleFrom_strategy _
    · rfl
  · split_ifs
    · rfl
    · rfl
  · rfl

theorem ordinary_new (idle : Duration) : (newWatermarkCoordinator idle).Ordinary := fun _ _ h => by cases h

theorem Ordinary.registerSource (ho : coord.Ordinary) (sid : SourceId) {strat : WatermarkStrategy}
    (hs : strat.Ordinary) : (coord.registerSource sid strat).Ordinary := by
  intro sid₁ s₁ hl
  change AssocMap.lookup sid₁ (AssocMap.insert sid _ coord.wcSources) = some s₁ at hl
  rw [AssocMap.lookup_insert] at hl
  split_ifs at hl
  · cases hl
    exact hs
  · exact ho sid₁ s₁ hl

theorem Ordinary.apply (ho : coord.Ordinary) (op : Op) : (coord.apply op).Ordinary := by
  intro sid s hl
  cases hold : AssocMap.lookup sid coord.wcSources with
  | none =>
    rw [lookup_apply_none op hold] at hl
    cases hl
  | some s₀ =>
    rw [lookup_apply op hold] at hl
    cases hl
    rw [sourceAfter_strategy]
    exact ho sid s₀ hold

theorem isLive_of_none (h : s.sstIdleSince = none) : coord.isLive s := by
  unfold isLive
  rw [h]

theorem isLive_reportRecord (coord : WatermarkCoordinator) (sid : SourceId) (t : Timestamp) :
    (coord.apply (.reportRecord sid t)).isLive = coord.isLive := by
  show (coord.reportRecord sid t).1.isLive = coord.isLive
  unfold reportRecord
  split
  · rfl
  · rfl

/-- A source that comes alive reports or is marked active. -/
theorem comes_alive {op : Op} (hclock : ∀ t, op = .advanceWallClock t → coord.wcWallClock ≤ t)
    (hold : ¬ coord.isLive s) (hnew : (coord.apply op).isLive (coord.sourceAfter sid s op)) :
    op = .markActive sid ∨ ∃ t, op = .reportRecord sid t := by
  cases op with
  | reportRecord sid₁ t =>
    by_cases h : sid = sid₁
    · exact Or.inr ⟨t, by rw [h]⟩
    · rw [sourceAfter, if_neg h] at hnew
      rw [isLive_reportRecord] at hnew
      exact absurd hnew hold
  | markIdle sid₁ =>
    by_cases h : sid = sid₁
    · rw [sourceAfter, if_pos h] at hnew
      cases hidle : s.sstIdleSince with
      | none => exact absurd (isLive_of_none hidle) hold
      | some t0 =>
        rw [SourceState.idleFrom, hidle] at hnew
        exact absurd hnew hold
    · rw [sourceAfter, if_neg h] at hnew
      exact absurd hnew hold
  | markActive sid₁ =>
    by_cases h : sid = sid₁
    · exact Or.inl (by rw [h])
    · rw [sourceAfter, if_neg h] at hnew
      exact absurd hnew hold
  | advanceWallClock t =>
    refine absurd ?_ hold
    have hle := hclock t rfl
    change (coord.advanceWallClock t).isLive s at hnew
    unfold isLive at hnew ⊢
    cases hidle : s.sstIdleSince with
    | none => rfl
    | some t0 =>
      rw [hidle] at hnew
      exact decide_eq_true (lt_of_le_of_lt hle (of_decide_eq_true hnew))

/-- The published watermark falls where a source comes back behind it, or the last live
    one leaves. -/
theorem effective_apply_lt_iff (ho : coord.Ordinary) {op : Op}
    (hclock : ∀ t, op = .advanceWallClock t → coord.wcWallClock ≤ t) :
    (coord.apply op).currentEffectiveWatermark < coord.currentEffectiveWatermark ↔
      coord.ComesBack op ∨ coord.LastLeaves op := by
  constructor
  · intro hlt
    by_cases hnone : (coord.apply op).lives = []
    · right
      rw [effective_of_none hnone] at hlt
      exact ⟨hnone, hlt⟩
    · left
      obtain ⟨sid, s', hl', hlive', hw⟩ := mem_lives.1 (effective_mem hnone)
      rw [← hw] at hlt
      cases hl : AssocMap.lookup sid coord.wcSources with
      | none =>
        rw [lookup_apply_none op hl] at hl'
        cases hl'
      | some s =>
        rw [lookup_apply op hl] at hl'
        cases hl'
        have hdead : ¬ coord.isLive s := fun hlive => by
          have hle := effective_le (mem_lives.2 ⟨sid, s, hl, hlive, rfl⟩)
          exact absurd hlt (not_lt.2 (hle.trans (le_sourceAfter (ho sid s hl) op)))
        refine ⟨sid, s, hl, hdead, ?_⟩
        rcases comes_alive hclock hdead hlive' with rfl | ⟨t, rfl⟩
        · rw [sourceAfter, if_pos rfl] at hlt
          exact Or.inl ⟨rfl, hlt⟩
        · rw [sourceAfter, if_pos rfl] at hlt
          exact Or.inr ⟨t, rfl, hlt⟩
  · rintro (⟨sid, s, hl, -, hback⟩ | ⟨hnone, hlt⟩)
    · have hle : ∀ t, (coord.apply op).isLive (coord.sourceAfter sid s op) →
          (coord.sourceAfter sid s op).sstWatermark = t → (coord.apply op).currentEffectiveWatermark ≤ t :=
        fun t hlive ht => effective_le (mem_lives.2 ⟨sid, _, lookup_apply op hl, hlive, ht⟩)
      rcases hback with ⟨rfl, hlt⟩ | ⟨t, rfl, hlt⟩
      · rw [sourceAfter, if_pos rfl] at hle
        exact lt_of_le_of_lt (hle _ (isLive_of_none rfl) rfl) hlt
      · rw [sourceAfter, if_pos rfl] at hle
        exact lt_of_le_of_lt (hle _ (isLive_of_none rfl) rfl) hlt
    · rwa [effective_of_none hnone]

/-! ## Runs -/

theorem after_snoc (coord : WatermarkCoordinator) (past : List Op) (op : Op) :
    coord.after (past ++ [op]) = (coord.after past).apply op := by
  rw [after, List.foldl_append]
  rfl

theorem Ordinary.after (ho : coord.Ordinary) (ops : List Op) : (coord.after ops).Ordinary := by
  induction ops generalizing coord with
  | nil => exact ho
  | cons op ops ih => exact ih (ho.apply op)

theorem ClockForward.last {past : List Op} {op : Op} (h : coord.ClockForward (past ++ [op])) :
    ∀ t, op = .advanceWallClock t → (coord.after past).wcWallClock ≤ t := by
  induction past generalizing coord with
  | nil => exact h.1
  | cons op₁ past ih => exact ih h.2

/-- **In every run of ordinary sources no watermark of a source falls**, and the published
    one falls exactly at the steps where a source that had timed out comes back behind
    it, or the last live source leaves. -/
theorem effectiveWatermark_falls_iff (coord : WatermarkCoordinator) (past : List Op) (op : Op) (ho : coord.Ordinary)
    (hclock : coord.ClockForward (past ++ [op])) :
    (∀ sid s, AssocMap.lookup sid (coord.after past).wcSources = some s →
      ∃ s', AssocMap.lookup sid (coord.after (past ++ [op])).wcSources = some s' ∧ s.sstWatermark ≤ s'.sstWatermark) ∧
    ((coord.after (past ++ [op])).currentEffectiveWatermark < (coord.after past).currentEffectiveWatermark ↔
      (coord.after past).ComesBack op ∨ (coord.after past).LastLeaves op) := by
  rw [after_snoc]
  have hafter := ho.after past
  exact ⟨fun sid s hl => ⟨_, lookup_apply op hl, le_sourceAfter (hafter sid s hl) op⟩,
    effective_apply_lt_iff hafter hclock.last⟩

end

/-! ## A source that comes back -/

def millis (n : Int) (h : InRange n := by unfold InRange; omega) : Timestamp := ⟨n, h⟩

/-- Two sources with ascending timestamps, in a coordinator that lets a source be idle
    for ten milliseconds. -/
def twoSources : WatermarkCoordinator :=
  ((newWatermarkCoordinator (millis 10)).registerSource "a" ⟨.monotonicTimestamps⟩).registerSource "b" ⟨.monotonicTimestamps⟩

/-- The second source times out at 5, and the first one goes on to 100. -/
def timedOut : List Op :=
  [.advanceWallClock (millis 0), .reportRecord "a" (millis 100), .reportRecord "b" (millis 5), .markIdle "b",
    .advanceWallClock (millis 10)]

theorem twoSources_ordinary : twoSources.Ordinary :=
  ((ordinary_new _).registerSource "a" (Or.inl rfl)).registerSource "b" (Or.inl rfl)

/-- The clock of the run stands at 0 before it is set to 10.  The published watermark is 100, and 50 once
    the second source reports again. -/
theorem timedOut_runs :
    (twoSources.after (timedOut.take 4)).wcWallClock ≤ millis 10 ∧
      (twoSources.after (timedOut ++ [.reportRecord "b" (millis 50)])).currentEffectiveWatermark <
        (twoSources.after timedOut).currentEffectiveWatermark := by decide

theorem timedOut_forward (t : Timestamp) : twoSources.ClockForward (timedOut ++ [.reportRecord "b" t]) := by
  refine ⟨?_, ?_, ?_, ?_, ?_, ?_, trivial⟩
  · intro t' h
    cases h
    exact minTimestamp_le _
  · intro t' h
    cases h
  · intro t' h
    cases h
  · intro t' h
    cases h
  · intro t' h
    cases h
    exact timedOut_runs.1
  · intro t' h
    cases h

theorem effectiveWatermark_falls_back :
    (twoSources.after timedOut).ComesBack (.reportRecord "b" (millis 50)) ∨
      (twoSources.after timedOut).LastLeaves (.reportRecord "b" (millis 50)) :=
  (effectiveWatermark_falls_iff twoSources timedOut _ twoSources_ordinary (timedOut_forward _)).2.1
    timedOut_runs.2

/-- A source that had timed out takes the published watermark back with it. -/
theorem late_source_reopens :
    ¬ ∀ (coord : WatermarkCoordinator) (past : List Op) (op : Op), coord.Ordinary → coord.ClockForward (past ++ [op]) →
      (coord.after past).currentEffectiveWatermark ≤ (coord.after (past ++ [op])).currentEffectiveWatermark :=
  fun h => absurd timedOut_runs.2 (not_lt.2 (h twoSources timedOut _ twoSources_ordinary (timedOut_forward _)))

end WatermarkCoordinator

end Wireform.Kafka.Streams.Watermark
