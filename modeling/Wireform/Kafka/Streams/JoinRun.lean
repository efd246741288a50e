/-
  A run of a window join, its arrivals numbered.

  A run of the same join over the numbers (`tagged`) says which arrivals an output is
  about, and the stores of that run hold numbers.

  * `outputsAt_tagged`: the outputs are those of the numbered run, rendered;
  * `matchesOf_spec`: the matches of a record are the earlier records it makes a pair with;
  * `sweep_spec`: the scan emits exactly the held records whose window has closed, since on
    each side the records that follow an open one are open.
-/
import Wireform.Kafka.Streams.WindowJoin

namespace Wireform.Kafka.Streams.WindowJoin

/-- A join and the order in which the records of both sides arrive. -/
structure Run (K V1 V2 Vo : Type) where
  windows : JoinWindows
  spec : WindowJoinSpec V1 V2 Vo
  arrivals : ℕ → Record K (V1 ⊕ V2)
  timestamps : ∀ n, 0 ≤ (arrivals n).recordTimestamp ∧ (arrivals n).recordTimestamp < 2 ^ 63

/-- What an output is about. -/
inductive Event where
  | joined (l r : ℕ)
  | unmatched (s : Side) (i : ℕ)
  deriving DecidableEq, Repr

/-- How far after a record of a side its matches may be. -/
def JoinWindows.ahead (jw : JoinWindows) : Side → Int
  | .leftSide => jw.afterMs
  | .rightSide => jw.beforeMs

/-- The side's records are emitted without a match too. -/
def WindowJoinSpec.outer {V1 V2 Vo : Type} (spec : WindowJoinSpec V1 V2 Vo) : Side → Bool
  | .leftSide => spec.wjsLeftOnly.isSome
  | .rightSide => spec.wjsRightOnly.isSome

variable {K : Type} [LinearOrder K] {V1 V2 Vo : Type}

namespace Run

variable (R : Run K V1 V2 Vo) (i j l r n : ℕ)

def key : Option K := (R.arrivals n).recordKey

def ts : Int := (R.arrivals n).recordTimestamp

def side : Side :=
  match (R.arrivals n).recordValue with
  | .inl _ => .leftSide
  | .inr _ => .rightSide

/-- The stream time before the `n`-th arrival. -/
def streamTime : ℕ → Int
  | 0 => -2 ^ 63
  | n + 1 => if (R.key n).isSome then max (streamTime n) (R.ts n) else streamTime n

attribute [grind =] streamTime

/-- Where the window of a record ends. -/
def windowEnd : Int := R.ts i + R.windows.ahead (R.side i)

/-- Late by the test of its own side. -/
def Late : Prop :=
  addInt (addInt (R.ts n) (R.windows.ahead (R.side n))) R.windows.gracePeriodMs < R.streamTime (n + 1)

/-- A record of either side, with one key, and each in the window of the other. -/
def Pair : Prop :=
  R.side i ≠ R.side j ∧ (∃ k, R.key i = some k ∧ R.key j = some k) ∧
    R.ts j ≤ R.windowEnd i ∧ R.ts i ≤ R.windowEnd j

/-- A record of an outer side that had no match when it arrived. -/
def Unpaired : Prop :=
  R.spec.outer (R.side i) = true ∧ (R.key i).isSome ∧ ¬ R.Late i ∧ ∀ j < i, ¬ R.Pair i j

/-- The `n`-th arrival, not late and at the stream time, is past the grace period of `i`. -/
def Closes : Prop :=
  (R.key n).isSome ∧ ¬ R.Late n ∧ R.ts n = R.streamTime (n + 1) ∧
    R.windowEnd i + R.windows.gracePeriodMs < R.streamTime (n + 1)

/-- After the `n`-th arrival the record need not wait any longer. -/
def Settles : Prop := ¬ R.Late n ∧ R.Pair i n ∨ R.Closes i n

/-- The record waits for a match or for its window to close. -/
def Held : Prop :=
  i < n ∧ R.Unpaired i ∧ R.streamTime (i + 1) ≤ R.windowEnd i ∧ ∀ j, i < j → j < n → ¬ R.Settles i j

def leftValue : Option V1 := (R.arrivals i).recordValue.getLeft?

def rightValue : Option V2 := (R.arrivals i).recordValue.getRight?

/-- What the joiner makes of an event. -/
def render : Event → Option Vo
  | .joined l r => (R.leftValue l).bind fun v1 => (R.rightValue r).map fun v2 => R.spec.wjsJoin v1 v2
  | .unmatched .leftSide i => R.spec.wjsLeftOnly.bind fun u => (R.leftValue i).map u
  | .unmatched .rightSide i => R.spec.wjsRightOnly.bind fun u => (R.rightValue i).map u

/-- The record of a value that is emitted for an event: a joined one carries the later of
    the two timestamps. -/
def stamp {V : Type} (n : ℕ) (e : Event) (v : V) : Record K V :=
  match e with
  | .joined l r => ⟨R.key l, v, max (R.ts l) (R.ts r), (R.arrivals n).recordHeaders⟩
  | .unmatched _ i => ⟨R.key i, v, R.ts i, (R.arrivals n).recordHeaders⟩

/-! ## Numbered arrivals -/

/-- The same join over the numbers of the arrivals. -/
def tagSpec : WindowJoinSpec ℕ ℕ Event where
  wjsJoin := .joined
  wjsLeftOnly := R.spec.wjsLeftOnly.map fun _ => .unmatched .leftSide
  wjsRightOnly := R.spec.wjsRightOnly.map fun _ => .unmatched .rightSide

def tag : Side → ℕ → ℕ ⊕ ℕ
  | .leftSide, i => .inl i
  | .rightSide, i => .inr i

attribute [grind =] tag

def tagged : Record K (ℕ ⊕ ℕ) :=
  ⟨R.key n, tag (R.side n) n, R.ts n, (R.arrivals n).recordHeaders⟩

/-- What the `n`-th arrival's outputs are about. -/
def log : List Event := (outputsAt R.windows R.tagSpec R.tagged n).map Record.recordValue

/-- The join of values that may be missing. -/
def optionSpec : WindowJoinSpec (Option V1) (Option V2) (Option Vo) where
  wjsJoin x y := x.bind fun v1 => y.map fun v2 => R.spec.wjsJoin v1 v2
  wjsLeftOnly := R.spec.wjsLeftOnly.map fun u x => x.map u
  wjsRightOnly := R.spec.wjsRightOnly.map fun u x => x.map u

omit [LinearOrder K] in
theorem agree_some : WindowJoinSpec.Agree some some some R.spec R.optionSpec where
  join _ _ := rfl
  leftOnly := by simp [optionSpec, Function.comp_def]
  rightOnly := by simp [optionSpec, Function.comp_def]

omit [LinearOrder K] in
theorem agree_tagSpec : WindowJoinSpec.Agree R.leftValue R.rightValue R.render R.tagSpec R.optionSpec where
  join l r := rfl
  leftOnly := by
    cases h : R.spec.wjsLeftOnly with
    | none => simp [optionSpec, tagSpec, h]
    | some u => simp [optionSpec, tagSpec, render, h]
  rightOnly := by
    cases h : R.spec.wjsRightOnly with
    | none => simp [optionSpec, tagSpec, h]
    | some u => simp [optionSpec, tagSpec, render, h]

omit [LinearOrder K] in
theorem tagged_map : (R.tagged n).map (Sum.map R.leftValue R.rightValue) = (R.arrivals n).map (Sum.map some some) := by
  unfold tagged side leftValue rightValue Record.map
  simp only [Record.mk.injEq]
  refine ⟨rfl, ?_, rfl, trivial⟩
  cases h : (R.arrivals n).recordValue with
  | inl v => simp [tag, h]
  | inr v => simp [tag, h]

/-- **The outputs are those of the numbered run, rendered.** -/
theorem outputsAt_tagged :
    (outputsAt R.windows R.spec R.arrivals n).map (Record.map some) =
      (outputsAt R.windows R.tagSpec R.tagged n).map (Record.map R.render) := by
  rw [← outputsAt_map R.agree_some, ← outputsAt_map R.agree_tagSpec]
  congr 1
  exact funext fun i => (R.tagged_map i).symm

/-! ## The sides -/

def config : Side → SideConfig ℕ ℕ ℕ ℕ Event
  | .leftSide => leftConfig R.windows R.tagSpec
  | .rightSide => rightConfig R.windows R.tagSpec

/-- The event of a record and its match. -/
def pairEvent : Side → ℕ → ℕ → Event
  | .leftSide, x, y => .joined x y
  | .rightSide, x, y => .joined y x

section

omit [LinearOrder K]

variable (s s' : Side)

@[simp] theorem config_side : (R.config s).scSide = s := by cases s <;> rfl

@[simp] theorem config_ahead : (R.config s).scAhead = R.windows.ahead s := by cases s <;> rfl

@[simp] theorem config_back : (R.config s).scBack = R.windows.ahead s.opposite := by cases s <;> rfl

@[simp] theorem config_grace : (R.config s).scGrace = R.windows.gracePeriodMs := by cases s <;> rfl

@[simp] theorem config_join : (R.config s).scJoin = pairEvent s := by cases s <;> rfl

@[simp] theorem config_hold : (R.config s).scHold = tag s := by cases s <;> rfl

theorem config_unmatched :
    (R.config s).scUnmatched = if R.spec.outer s then some (.unmatched s) else none := by
  cases s
  · cases h : R.spec.wjsRightOnly <;> simp [config, rightConfig, tagSpec, WindowJoinSpec.outer, h]
  · cases h : R.spec.wjsLeftOnly <;> simp [config, leftConfig, tagSpec, WindowJoinSpec.outer, h]

theorem config_render (h : R.spec.outer s' = true) : (R.config s).scRender (tag s' i) = some (.unmatched s' i) := by
  have hrender : (R.config s).scRender = R.tagSpec.render := by cases s <;> rfl
  rw [hrender]
  cases s'
  · obtain ⟨u, hu⟩ := Option.isSome_iff_exists.1 h
    simp [WindowJoinSpec.render, tagSpec, tag, hu]
  · obtain ⟨u, hu⟩ := Option.isSome_iff_exists.1 h
    simp [WindowJoinSpec.render, tagSpec, tag, hu]

theorem stillOpen_config (st : Int) (key : OuterKey K) :
    stillOpen (R.config s) st key =
      decide (st ≤ addInt (addInt (okTs key) (R.windows.ahead (okSide key))) R.windows.gracePeriodMs) := by
  have hahead : (if okSide key = .leftSide then (R.config s).scAfter else (R.config s).scBefore) =
      R.windows.ahead (okSide key) := by
    cases hs : okSide key <;> cases s <;> rfl
  unfold stillOpen
  rw [hahead, config_grace]

/-! ## Stream time -/

theorem ahead_range : 0 ≤ R.windows.ahead s ∧ R.windows.ahead s < 2 ^ 63 := by
  cases s
  · exact R.windows.before_range
  · exact R.windows.after_range

variable {i j n}

theorem streamTime_succ (h : (R.key n).isSome) : R.streamTime (n + 1) = max (R.streamTime n) (R.ts n) := by
  rw [streamTime, if_pos h]

theorem ts_le_streamTime (h : (R.key n).isSome) : R.ts n ≤ R.streamTime (n + 1) := by
  rw [R.streamTime_succ h]
  exact le_max_right _ _

theorem streamTime_mono {m n : Nat} (h : m ≤ n) : R.streamTime m ≤ R.streamTime n := by
  induction n, h using Nat.le_induction with
  | base => exact le_refl _
  | succ n _ ih =>
    refine ih.trans ?_
    rw [streamTime]
    split_ifs
    · exact le_max_left _ _
    · exact le_refl _

/-- A sum that overflows is below the stream time. -/
theorem not_late_iff (h : (R.key n).isSome) :
    ¬ R.Late n ↔
      R.streamTime (n + 1) ≤ R.windowEnd n + R.windows.gracePeriodMs ∧
        R.windowEnd n + R.windows.gracePeriodMs < 2 ^ 63 := by
  have hts := R.timestamps n
  have hahead := R.ahead_range (R.side n)
  have hgrace := R.windows.grace_range
  have hst := R.ts_le_streamTime h
  unfold Late windowEnd
  unfold ts at hst ⊢
  unfold addInt wrap
  omega

end

/-! ## Stores -/

variable {i j n} {k : K}

/-- Where a record is kept. -/
def place (i : ℕ) : Option (Int ×ₗ K) := (R.key i).map fun k => toLex (R.ts i, k)

/-- Where a record of side `s` is held. -/
def heldPlace (s : Side) (i : ℕ) : Option (OuterKey K) := (R.key i).map fun k => outerKey (R.ts i) s k

def outerPlace : ℕ ⊕ ℕ → Option (OuterKey K) := Sum.elim (R.heldPlace .leftSide) (R.heldPlace .rightSide)

omit [LinearOrder K] in
@[simp] theorem outerPlace_tag (s : Side) (i : ℕ) : R.outerPlace (tag s i) = R.heldPlace s i := by cases s <;> rfl

@[simp] theorem untag_tag (s : Side) (i : ℕ) : (tag s i).elim id id = i := by cases s <;> rfl

/-- The earlier records of a side. -/
def arrived (s : Side) (n : ℕ) : Set ℕ := {i | i < n ∧ R.side i = s}

/-- The records that are held before the `n`-th arrival. -/
def waiting (n : ℕ) : Set (ℕ ⊕ ℕ) := {z | ∃ i, z = tag (R.side i) i ∧ R.Held i n}

omit [LinearOrder K] in
theorem place_eq {e : Int ×ₗ K} (h : R.place i = some e) : (ofLex e).1 = R.ts i ∧ R.key i = some (ofLex e).2 := by
  obtain ⟨k, hk, rfl⟩ := Option.map_eq_some_iff.1 h
  exact ⟨rfl, hk⟩

theorem opposite_of_ne {s t : Side} (h : s ≠ t) : t = s.opposite := by
  cases s <;> cases t <;> first | rfl | exact absurd rfl h

theorem opposite_ne (s : Side) : s ≠ s.opposite := by cases s <;> exact Side.noConfusion

/-- **The matches of a record are the earlier records that it makes a pair with.** -/
theorem matchesOf_spec {other : WindowStore K ℕ} (hk : R.key n = some k) (hn : ¬ R.Late n)
    (h : AssocMap.Filed R.place (R.arrived (R.side n).opposite n) other) :
    ∃ ys : List ℕ, matchesOf (R.config (R.side n)) other k (R.ts n) = ys.map (fun y => (R.ts y, y)) ∧
      ys.Nodup ∧ ∀ y, y ∈ ys ↔ y < n ∧ R.Pair n y := by
  obtain ⟨hopen, hfits⟩ := (R.not_late_iff (by rw [hk]; rfl)).1 hn
  have hts := R.timestamps n
  have hahead := R.ahead_range (R.side n)
  have hback := R.ahead_range (R.side n).opposite
  have hgrace := R.windows.grace_range
  have hend : R.windowEnd n = R.ts n + R.windows.ahead (R.side n) := rfl
  change 0 ≤ R.ts n ∧ R.ts n < 2 ^ 63 at hts
  have hlo : max 0 (subInt (R.ts n) (R.windows.ahead (R.side n).opposite)) =
      max 0 (R.ts n - R.windows.ahead (R.side n).opposite) := by
    rw [subInt_eq (by unfold InRange; omega)]
  have hhi : max 0 (addInt (R.ts n) (R.windows.ahead (R.side n))) = R.windowEnd n := by
    rw [addInt_eq (by unfold InRange; omega), hend]
    omega
  unfold matchesOf fetchAll
  simp only [config_back, config_ahead, hlo, hhi]
  have hrange := h.filter fun e : Int ×ₗ K => decide
    (max 0 (R.ts n - R.windows.ahead (R.side n).opposite) ≤ (ofLex e).1 ∧ (ofLex e).1 ≤ R.windowEnd n ∧
      (ofLex e).2 = k)
  refine ⟨AssocMap.items (wsFetchRange other k _ _), ?_, hrange.nodup, fun y => ?_⟩
  · refine hrange.map_items (f := fun e y => ((ofLex e).1, y)) (g := fun y => (R.ts y, y)) fun e y _ he => ?_
    rw [(R.place_eq he).1]
  · have hty := (R.timestamps y).1
    change 0 ≤ R.ts y at hty
    refine hrange.mem_items.trans ?_
    constructor
    · rintro ⟨⟨⟨hlt, hside⟩, e, he, hp⟩, -⟩
      obtain ⟨hp1, hp2, hp3⟩ := of_decide_eq_true hp
      obtain ⟨he1, he2⟩ := R.place_eq he
      have hendy : R.windowEnd y = R.ts y + R.windows.ahead (R.side n).opposite := by
        unfold windowEnd
        rw [hside]
      refine ⟨hlt, ?_, ⟨k, hk, by rw [he2, hp3]⟩, by omega, by omega⟩
      rw [hside]
      exact opposite_ne _
    · rintro ⟨hlt, hside, ⟨k', hk', hky⟩, h1, h2⟩
      rw [hk] at hk'
      cases hk'
      have hopp := opposite_of_ne hside
      have hendy : R.windowEnd y = R.ts y + R.windows.ahead (R.side n).opposite := by
        unfold windowEnd
        rw [hopp]
      have hplace : R.place y = some (toLex (R.ts y, k)) := by
        unfold place
        rw [hky]
        rfl
      refine ⟨⟨⟨hlt, hopp⟩, _, hplace, decide_eq_true ⟨?_, h1, rfl⟩⟩, _, hplace⟩
      change max 0 (R.ts n - R.windows.ahead (R.side n).opposite) ≤ R.ts y
      omega

/-! ## The scan -/

omit [LinearOrder K] in
/-- The scan misses nothing, for on each side whatever follows an open record is open. -/
theorem emitClosedGo_eq {cfg : SideConfig ℕ ℕ ℕ ℕ Event} {st : Int} {o : OuterStore K ℕ ℕ} {leftOpen rightOpen : Bool}
    (hmono : o.Pairwise fun e e' => okSide e.1 = okSide e'.1 → stillOpen cfg st e.1 = true → stillOpen cfg st e'.1 = true)
    (hleft : leftOpen = true → ∀ e ∈ o, okSide e.1 = .leftSide → stillOpen cfg st e.1 = true)
    (hright : rightOpen = true → ∀ e ∈ o, okSide e.1 = .rightSide → stillOpen cfg st e.1 = true) :
    emitClosedGo cfg st leftOpen rightOpen o = o.filter fun e => !stillOpen cfg st e.1 := by
  induction o generalizing leftOpen rightOpen with
  | nil => rfl
  | cons e o ih =>
    obtain ⟨he, hmono⟩ := List.pairwise_cons.1 hmono
    have hleft' : leftOpen = true → ∀ e ∈ o, okSide e.1 = .leftSide → stillOpen cfg st e.1 = true :=
      fun hl e' he' => hleft hl e' (List.mem_cons_of_mem _ he')
    have hright' : rightOpen = true → ∀ e ∈ o, okSide e.1 = .rightSide → stillOpen cfg st e.1 = true :=
      fun hr e' he' => hright hr e' (List.mem_cons_of_mem _ he')
    unfold emitClosedGo
    split_ifs with hboth hopen
    · obtain ⟨hl, hr⟩ := Bool.and_eq_true_iff.1 hboth
      refine (List.filter_eq_nil_iff.2 fun e' he' => ?_).symm
      cases hs : okSide e'.1 with
      | leftSide => simp [hleft hl e' he' hs]
      | rightSide => simp [hright hr e' he' hs]
    · rw [List.filter_cons_of_neg (by simp [hopen])]
      refine ih hmono ?_ ?_
      · intro hl e' he' hs
        rcases Bool.or_eq_true_iff.1 hl with hl | hl
        · exact hleft' hl e' he' hs
        · exact he e' he' (by rw [of_decide_eq_true hl, hs]) hopen
      · intro hr e' he' hs
        rcases Bool.or_eq_true_iff.1 hr with hr | hr
        · exact hright' hr e' he' hs
        · exact he e' he' (by rw [of_decide_eq_true hr, hs]) hopen
    · rw [List.filter_cons_of_pos (by simp [hopen]), ih hmono hleft' hright']

omit [LinearOrder K] in
theorem stillOpen_held (s : Side) (st : Int) (hk : R.key i = some k) (hi : ¬ R.Late i) :
    stillOpen (R.config s) st (outerKey (R.ts i) (R.side i) k) =
      decide (st ≤ R.windowEnd i + R.windows.gracePeriodMs) := by
  have hfits := ((R.not_late_iff (by rw [hk]; rfl)).1 hi).2
  have hts := R.timestamps i
  have hahead := R.ahead_range (R.side i)
  have hgrace := R.windows.grace_range
  have hend : R.windowEnd i = R.ts i + R.windows.ahead (R.side i) := rfl
  change 0 ≤ R.ts i ∧ R.ts i < 2 ^ 63 at hts
  rw [stillOpen_config]
  change decide (st ≤ addInt (addInt (R.ts i) (R.windows.ahead (R.side i))) R.windows.gracePeriodMs) = _
  have hinner : addInt (R.ts i) (R.windows.ahead (R.side i)) = R.windowEnd i := by
    rw [addInt_eq (by unfold InRange; omega), hend]
  rw [hinner, addInt_eq (by unfold InRange; omega)]

omit [LinearOrder K] in
/-- What is filed in the outer store. -/
theorem waiting_place {z : ℕ ⊕ ℕ} {key : OuterKey K} (hz : z ∈ R.waiting n) (hkey : R.outerPlace z = some key) :
    ∃ i k, z = tag (R.side i) i ∧ R.Held i n ∧ R.key i = some k ∧ key = outerKey (R.ts i) (R.side i) k := by
  obtain ⟨i, rfl, hi⟩ := hz
  rw [outerPlace_tag] at hkey
  obtain ⟨k, hk, rfl⟩ := Option.map_eq_some_iff.1 hkey
  exact ⟨i, k, rfl, hi, hk, rfl⟩

theorem okTs_mono {key key' : OuterKey K} (h : key ≤ key') : okTs key ≤ okTs key' := Prod.Lex.monotone_fst _ _ h

theorem pairwise_stillOpen {o : OuterStore K ℕ ℕ} (s : Side) (st : Int) (h : AssocMap.Filed R.outerPlace (R.waiting n) o) :
    o.Pairwise fun e e' => okSide e.1 = okSide e'.1 → stillOpen (R.config s) st e.1 = true →
      stillOpen (R.config s) st e'.1 = true := by
  refine h.ascending.imp_of_mem fun {e e'} he he' hlt hside => ?_
  obtain ⟨z, hz, hkey⟩ := h.exists_addr he
  obtain ⟨z', hz', hkey'⟩ := h.exists_addr he'
  obtain ⟨i, k, -, hi, hk, he⟩ := R.waiting_place hz hkey
  obtain ⟨j, k', -, hj, hk', he'⟩ := R.waiting_place hz' hkey'
  have hts := okTs_mono hlt.le
  rw [he, he'] at hside hts
  change R.side i = R.side j at hside
  change R.ts i ≤ R.ts j at hts
  rw [he, he', R.stillOpen_held s st hk hi.2.1.2.2.1, R.stillOpen_held s st hk' hj.2.1.2.2.1]
  intro hopen
  have hst : st ≤ R.windowEnd i + R.windows.gracePeriodMs := of_decide_eq_true hopen
  refine decide_eq_true ?_
  unfold windowEnd at hst ⊢
  rw [← hside]
  omega

/-- A held record as an event. -/
def heldEvent (i : ℕ) : Event := .unmatched (R.side i) i

omit [LinearOrder K] in
theorem closes_iff (hk : (R.key n).isSome) (hn : ¬ R.Late n) (hts : R.ts n = R.streamTime (n + 1)) :
    R.Closes i n ↔ ¬ R.streamTime (n + 1) ≤ R.windowEnd i + R.windows.gracePeriodMs := by
  unfold Closes
  rw [not_le]
  exact ⟨fun h => h.2.2.2, fun h => ⟨hk, hn, hts, h⟩⟩

/-- The held records that are emitted at the `n`-th arrival, and those that are not. -/
def released (n : ℕ) : Set (ℕ ⊕ ℕ) := {z | ∃ i, z = tag (R.side i) i ∧ R.Held i n ∧ R.Closes i n}

def kept (n : ℕ) : Set (ℕ ⊕ ℕ) := {z | ∃ i, z = tag (R.side i) i ∧ R.Held i n ∧ ¬ R.Closes i n}

/-- What the scan finds closed. -/
def closedBy (s : Side) (n : ℕ) (o : OuterStore K ℕ ℕ) : OuterStore K ℕ ℕ :=
  o.filter fun e => !stillOpen (R.config s) (R.streamTime (n + 1)) e.1

section

variable {o : OuterStore K ℕ ℕ} (s : Side) (hk : (R.key n).isSome) (hn : ¬ R.Late n)
  (hts : R.ts n = R.streamTime (n + 1)) (h : AssocMap.Filed R.outerPlace (R.waiting n) o)

include hk hn hts

omit [LinearOrder K] in
theorem stillOpen_iff (hi : R.Held i n) (hki : R.key i = some k) :
    stillOpen (R.config s) (R.streamTime (n + 1)) (outerKey (R.ts i) (R.side i) k) = true ↔ ¬ R.Closes i n := by
  rw [R.stillOpen_held s _ hki hi.2.1.2.2.1, R.closes_iff hk hn hts, not_not]
  exact decide_eq_true_iff

include h

theorem filed_closedBy : AssocMap.Filed R.outerPlace (R.released n) (R.closedBy s n o) := by
  refine (h.filter fun key => !stillOpen (R.config s) (R.streamTime (n + 1)) key).congr fun z key hkey => ?_
  constructor
  · rintro ⟨hz, key, hkey, hp⟩
    obtain ⟨i, k, rfl, hi, hki, rfl⟩ := R.waiting_place hz hkey
    refine ⟨i, rfl, hi, not_not.1 fun hc => ?_⟩
    rw [(R.stillOpen_iff s hk hn hts hi hki).2 hc] at hp
    cases hp
  · rintro ⟨i, rfl, hi, hc⟩
    have hz : tag (R.side i) i ∈ R.waiting n := ⟨i, rfl, hi⟩
    refine ⟨hz, key, hkey, ?_⟩
    obtain ⟨j, k, htag, hj, hkj, rfl⟩ := R.waiting_place hz hkey
    have hij : i = j := by simpa using congrArg (Sum.elim id id) htag
    subst hij
    by_contra hp
    exact (R.stillOpen_iff s hk hn hts hi hkj).1 (by simpa using hp) hc

theorem filed_kept :
    AssocMap.Filed R.outerPlace (R.kept n)
      (((R.closedBy s n o).map Prod.fst).foldl (fun o key => AssocMap.erase key o) o) := by
  have hclosed := R.filed_closedBy s hk hn hts h
  refine (h.foldl_erase _).congr fun z key hkey => ?_
  constructor
  · rintro ⟨⟨i, rfl, hi⟩, hno⟩
    refine ⟨i, rfl, hi, fun hc => ?_⟩
    obtain ⟨xs, hxs, -⟩ := (hclosed.mem key _).2 ⟨⟨i, rfl, hi, hc⟩, hkey⟩
    exact hno key (List.mem_map_of_mem hxs) hkey
  · rintro ⟨i, rfl, hi, hc⟩
    refine ⟨⟨i, rfl, hi⟩, fun key' hkey' heq => ?_⟩
    obtain ⟨e, he, rfl⟩ := List.mem_map.1 hkey'
    obtain ⟨k, hki⟩ := Option.isSome_iff_exists.1 hi.2.1.2.1
    rw [outerPlace_tag, heldPlace, hki] at heq
    have hp := (List.mem_filter.1 he).2
    rw [← Option.some.inj heq, (R.stillOpen_iff s hk hn hts hi hki).2 hc] at hp
    cases hp

theorem emitClosed_eq :
    emitClosed (R.config s) (R.streamTime (n + 1)) (R.arrivals n).recordHeaders o =
      (((R.closedBy s n o).map Prod.fst).foldl (fun o key => AssocMap.erase key o) o,
        (AssocMap.items (R.closedBy s n o)).map fun z =>
          R.stamp n (R.heldEvent (z.elim id id)) (R.heldEvent (z.elim id id))) := by
  have hgo : emitClosedGo (R.config s) (R.streamTime (n + 1)) false false o = R.closedBy s n o :=
    emitClosedGo_eq (R.pairwise_stillOpen s _ h) (fun hf => absurd hf Bool.false_ne_true)
      (fun hf => absurd hf Bool.false_ne_true)
  unfold emitClosed
  rw [hgo]
  refine Prod.ext rfl ((R.filed_closedBy s hk hn hts h).filterMap_items
    (f := fun key hv => ((R.config s).scRender hv).map fun out =>
      (⟨some (okKey key), out, okTs key, (R.arrivals n).recordHeaders⟩ : Record K Event))
    (g := fun z => R.stamp n (R.heldEvent (z.elim id id)) (R.heldEvent (z.elim id id))) fun key z hz hkey => ?_)
  obtain ⟨i, rfl, hi, -⟩ := hz
  obtain ⟨k, hki⟩ := Option.isSome_iff_exists.1 hi.2.1.2.1
  rw [outerPlace_tag, heldPlace, hki] at hkey
  rw [R.config_render _ _ _ hi.2.1.1, untag_tag, ← Option.some.inj hkey]
  simp only [heldEvent, stamp, hki]
  rfl

/-- **The scan emits the held records whose window has closed, and leaves the others.** -/
theorem sweep_closed :
    ∃ (zs : List ℕ) (o' : OuterStore K ℕ ℕ),
      sweep (R.config s) (R.ts n) (R.streamTime (n + 1)) (R.arrivals n).recordHeaders (some o) =
        (some o', zs.map fun i => R.stamp n (R.heldEvent i) (R.heldEvent i)) ∧
      zs.Nodup ∧ zs.Pairwise (fun i j => R.ts i ≤ R.ts j) ∧ (∀ i, i ∈ zs ↔ R.Held i n ∧ R.Closes i n) ∧
      AssocMap.Filed R.outerPlace (R.kept n) o' := by
  have hclosed := R.filed_closedBy s hk hn hts h
  have hmem : ∀ z ∈ AssocMap.items (R.closedBy s n o), ∃ i, z = tag (R.side i) i ∧ R.Held i n ∧ R.Closes i n :=
    fun z hz => (hclosed.mem_items.1 hz).1
  have hplace : ∀ i, R.Held i n → ∃ key, R.outerPlace (tag (R.side i) i) = some key ∧ okTs key = R.ts i :=
    fun i hi => by
      obtain ⟨k, hki⟩ := Option.isSome_iff_exists.1 hi.2.1.2.1
      exact ⟨outerKey (R.ts i) (R.side i) k, by rw [outerPlace_tag, heldPlace, hki]; rfl, rfl⟩
  refine ⟨(AssocMap.items (R.closedBy s n o)).map (Sum.elim id id), _, ?_, ?_, ?_, fun i => ?_,
    R.filed_kept s hk hn hts h⟩
  · simp only [sweep, if_pos hts, R.emitClosed_eq s hk hn hts h, List.map_map]
    rfl
  · refine List.Nodup.map_on (fun z hz z' hz' heq => ?_) hclosed.nodup
    obtain ⟨i, rfl, -⟩ := hmem z hz
    obtain ⟨j, rfl, -⟩ := hmem z' hz'
    rw [untag_tag, untag_tag] at heq
    rw [heq]
  · rw [List.pairwise_map]
    refine hclosed.pairwise_items.imp_of_mem fun {z z'} hz hz' hle => ?_
    obtain ⟨i, rfl, hi, -⟩ := hmem z hz
    obtain ⟨j, rfl, hj, -⟩ := hmem z' hz'
    obtain ⟨key, hkey, hti⟩ := hplace i hi
    obtain ⟨key', hkey', htj⟩ := hplace j hj
    rw [untag_tag, untag_tag, ← hti, ← htj]
    exact okTs_mono (hle key key' hkey hkey')
  · rw [List.mem_map]
    constructor
    · rintro ⟨z, hz, rfl⟩
      obtain ⟨j, rfl, hj⟩ := hmem z hz
      rwa [untag_tag]
    · rintro ⟨hi, hc⟩
      obtain ⟨key, hkey, -⟩ := hplace i hi
      exact ⟨tag (R.side i) i, hclosed.mem_items.2 ⟨⟨i, rfl, hi, hc⟩, key, hkey⟩, untag_tag _ _⟩

end

theorem sweep_spec {o : OuterStore K ℕ ℕ} (s : Side) (hk : (R.key n).isSome) (hn : ¬ R.Late n)
    (h : AssocMap.Filed R.outerPlace (R.waiting n) o) :
    ∃ (zs : List ℕ) (o' : OuterStore K ℕ ℕ),
      sweep (R.config s) (R.ts n) (R.streamTime (n + 1)) (R.arrivals n).recordHeaders (some o) =
        (some o', zs.map fun i => R.stamp n (R.heldEvent i) (R.heldEvent i)) ∧
      zs.Nodup ∧ zs.Pairwise (fun i j => R.ts i ≤ R.ts j) ∧ (∀ i, i ∈ zs ↔ R.Held i n ∧ R.Closes i n) ∧
      AssocMap.Filed R.outerPlace (R.kept n) o' := by
  by_cases hts : R.ts n = R.streamTime (n + 1)
  · exact R.sweep_closed s hk hn hts h
  · refine ⟨[], o, ?_, List.nodup_nil, List.Pairwise.nil, fun i => ?_, h.congr fun z key hkey => ?_⟩
    · simp only [sweep, if_neg hts, List.map_nil]
    · simp only [List.not_mem_nil, false_iff, not_and]
      exact fun _ hc => hts hc.2.2.1
    · constructor
      · rintro ⟨i, rfl, hi⟩
        exact ⟨i, rfl, hi, fun hc => hts hc.2.2.1⟩
      · rintro ⟨i, rfl, hi, -⟩
        exact ⟨i, rfl, hi⟩

end Run

end Wireform.Kafka.Streams.WindowJoin
