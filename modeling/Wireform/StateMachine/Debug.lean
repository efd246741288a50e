/-
  The simulator (`StateMachine.Debug`).

  A script drives a machine with a virtual clock.  A world carries, besides what the
  source keeps, the agenda of its timers; no step reads it.

  * `applyStepped`, `advanceBy`, `runScript` (`go` there), `simulate`;
  * `advanceBy_add`: advances add up;
  * `Tracks`: the pending timers are those of the agenda, which is in order;
  * `virtual_time`: both, for all scripts.
-/
import Wireform.Agenda
import Wireform.StateMachine.Trace

namespace Wireform.StateMachine.Debug

variable {T : Types} {J : Type}

/-! ## The model -/

structure SimResult (T : Types) where
  simMachine : Machine T
  simTrace : List MicroTrace
  simEffectLog : List EffectReq
  /-- The timers that are armed, with the time that remains. -/
  simPendingTimers : List (TimerKey × Int)
  simActiveInvokes : List (String × String)
  agenda : Agenda TimerKey

inductive SimCommand (T : Types) (J : Type) where
  | send (ev : T.EventVal)
  | sendNamed (name : String) (payload : J)
  | advance (dt : Int)
  | resolve (i : String) (v : T.Dynamic)
  | reject (i : String) (v : T.Dynamic)

inductive SimFailure where
  | stepFault (f : StepFault)
  | badEvent (t : String)
  | invokeNotActive (i : String)
  | decodeFailure (name err : String)
deriving DecidableEq

def isFinished (m : Machine T) : Bool :=
  match m.status with
  | .running => false
  | .finished _ => true

/-- All timers without those of the key. -/
def without (key : TimerKey) (timers : List (TimerKey × Int)) : List (TimerKey × Int) :=
  timers.filter fun e => e.1 ≠ key

def age (elapsed : Int) (timers : List (TimerKey × Int)) : List (TimerKey × Int) :=
  timers.map fun e => (e.1, e.2 - elapsed)

/-- The timer with the smallest remaining time in the window, the earliest armed of them. -/
def dueTimer (dt : Int) (timers : List (TimerKey × Int)) : Option (TimerKey × Int) :=
  least Prod.snd (timers.filter fun e => e.2 ≤ dt)

def applyEffect (st : SimResult T) : EffectReq → SimResult T
  | .startTimer k =>
    { st with
      simPendingTimers := without k st.simPendingTimers ++ [(k, (k.delayMs : Int))]
      agenda := st.agenda.arm k k.delayMs }
  | .cancelTimer k => { st with simPendingTimers := without k st.simPendingTimers, agenda := st.agenda.cancel k }
  | .startInvoke i src _ =>
    { st with simActiveInvokes := st.simActiveInvokes.filter (fun e => e.1 ≠ i) ++ [(i, src)] }
  | .cancelInvoke i => { st with simActiveInvokes := st.simActiveInvokes.filter fun e => e.1 ≠ i }

def applyStepped (st : SimResult T) (stepped : Stepped T) : SimResult T :=
  stepped.effects.foldl applyEffect
    { st with
      simMachine := stepped.machine
      simTrace := st.simTrace ++ stepped.trace
      simEffectLog := st.simEffectLog ++ stepped.effects }

def SimResult.elapse (st : SimResult T) (dt : Int) : SimResult T :=
  { st with simPendingTimers := age dt st.simPendingTimers, agenda := st.agenda.pass dt }

/-- The world in which the timer fires, `remaining` later. -/
def SimResult.fire (st : SimResult T) (key : TimerKey) (remaining : Int) : SimResult T :=
  { st with
    simPendingTimers := age remaining (without key st.simPendingTimers)
    agenda := st.agenda.fire key remaining }

/-- A computation that may end with a failure of the script, and what follows where it does not. -/
def andThen {α β : Type} (x : M T (Except SimFailure α)) (f : α → M T (Except SimFailure β)) :
    M T (Except SimFailure β) := do
  match ← x with
  | .error e => pure (.error e)
  | .ok a => f a

attribute [grind =] andThen

section

variable (fuel : Nat) (impl : ChartImpl T)

def stepSim (st : SimResult T) (ev : StepEvent T) : M T (Except SimFailure (SimResult T)) := do
  match ← step fuel impl st.simMachine ev with
  | .error f => pure (.error (.stepFault f))
  | .ok stepped => pure (.ok (applyStepped st stepped))

def advanceFuel : Nat := 10000

def exhausted : SimFailure :=
  .badEvent ("SimAdvance: " ++ toString advanceFuel ++
    " timer firings without exhausting the window (zero-delay timer cycle?)")

/-- Fires the timers that are due, one after another; `left` is what is left of the firings. -/
def advanceBy : Nat → Int → SimResult T → M T (Except SimFailure (SimResult T))
  | 0, _, _ => pure (.error exhausted)
  | left + 1, dt, st =>
    if isFinished st.simMachine then pure (.ok st)
    else
      match dueTimer dt st.simPendingTimers with
      | none => pure (.ok (st.elapse dt))
      | some e => andThen (stepSim fuel impl (st.fire e.1 e.2) (.timer e.1)) (advanceBy left (dt - e.2))

attribute [grind =] advanceBy

def settle (st : SimResult T) (i : String) (ev : StepEvent T) : M T (Except SimFailure (SimResult T)) :=
  if st.simActiveInvokes.any fun e => e.1 = i then
    stepSim fuel impl { st with simActiveInvokes := st.simActiveInvokes.filter fun e => e.1 ≠ i } ev
  else pure (.error (.invokeNotActive i))

variable (decodeEvent : String → J → Except String T.EventVal)

def runCommand (st : SimResult T) : SimCommand T J → M T (Except SimFailure (SimResult T))
  | .send ev => stepSim fuel impl st (.external ev)
  | .sendNamed name payload =>
    match decodeEvent name payload with
    | .error err => pure (.error (.decodeFailure name err))
    | .ok ev => stepSim fuel impl st (.external ev)
  | .advance dt =>
    if dt < 0 then pure (.error (.badEvent ("SimAdvance " ++ toString dt ++ ": negative duration")))
    else advanceBy fuel impl advanceFuel dt st
  | .resolve i v => settle fuel impl st i (.invokeDone i v)
  | .reject i v => settle fuel impl st i (.invokeError i v)

def runScript : List (SimCommand T J) → SimResult T → M T (Except SimFailure (SimResult T))
  | [], st => pure (.ok st)
  | c :: rest, st =>
    if isFinished st.simMachine then pure (.ok st)
    else andThen (runCommand fuel impl decodeEvent st c) (runScript rest)

attribute [grind =] runScript

/-- The world before the machine has done anything. -/
def blank (m : Machine T) : SimResult T := ⟨m, [], [], [], [], Agenda.empty⟩

def simulate (ctx0 : T.Ctx) (script : List (SimCommand T J)) : M T (Except SimFailure (SimResult T)) := do
  match ← initializeMachine fuel impl ctx0 with
  | .error f => pure (.error (.stepFault f))
  | .ok stepped => runScript fuel impl decodeEvent script (applyStepped (blank stepped.machine) stepped)

end

/-! ## Computations -/

section

variable {α β : Type} {x : M T (Except SimFailure α)} {f g : α → M T (Except SimFailure β)} {w w' : T.World}

/-- What follows a computation with this outcome. -/
def outcome (f : α → M T (Except SimFailure β)) :
    Option (Except (Failure T) (Except SimFailure α × T.World)) →
      Option (Except (Failure T) (Except SimFailure β × T.World))
  | none => none
  | some (.error e) => some (.error e)
  | some (.ok (.error e, w)) => some (.ok (.error e, w))
  | some (.ok (.ok a, w)) => f a w

theorem andThen_apply (x : M T (Except SimFailure α)) (f : α → M T (Except SimFailure β)) (w : T.World) :
    andThen x f w = outcome f (x w) := by
  have hbind : andThen x f w = Option.bind (x w) fun r =>
      match r with
      | .ok (.ok a, w₁) => f a w₁
      | .ok (.error e, w₁) => some (.ok (.error e, w₁))
      | .error e => some (.error e) := by
    change Option.bind (x w) _ = Option.bind (x w) _
    congr 1
    funext r
    rcases r with e | ⟨e | a, w₁⟩ <;> rfl
  rw [hbind]
  rcases x w with _ | e | ⟨e | a, w₁⟩ <;> rfl

theorem andThen_ok {a : α} (h : Yields x w (.ok a) w') : andThen x f w = f a w' := by
  rw [andThen_apply, show x w = _ from h]
  rfl

theorem andThen_error {e : SimFailure} : andThen (pure (.error e)) f w = some (.ok (.error e, w)) := rfl

@[simp] theorem pure_andThen (a : α) : andThen (pure (.ok a)) f = f a := rfl

@[simp] theorem andThen_pure (x : M T (Except SimFailure α)) : andThen x (fun a => pure (.ok a)) = x := by
  funext w
  rw [andThen_apply]
  rcases x w with _ | e | ⟨e | a, w₁⟩ <;> rfl

theorem andThen_assoc {γ : Type} (x : M T (Except SimFailure α)) (f : α → M T (Except SimFailure β))
    (g : β → M T (Except SimFailure γ)) : andThen (andThen x f) g = andThen x fun a => andThen (f a) g := by
  funext w
  rw [andThen_apply, andThen_apply, andThen_apply]
  rcases x w with _ | e | ⟨e | a, w₁⟩
  · rfl
  · rfl
  · rfl
  · exact (andThen_apply (f a) g w₁).symm

/-- What follows matters only where the computation returns. -/
theorem andThen_congr (h : ∀ a w', Yields x w (.ok a) w' → f a w' = g a w') : andThen x f w = andThen x g w := by
  rw [andThen_apply, andThen_apply]
  rcases hx : x w with _ | e | ⟨e | a, w₁⟩
  · rfl
  · rfl
  · rfl
  · exact h a w₁ hx

theorem yields_andThen {b : β} (h : Yields (andThen x f) w (.ok b) w') :
    ∃ a w₁, Yields x w (.ok a) w₁ ∧ Yields (f a) w₁ (.ok b) w' := by
  rw [Yields, andThen_apply] at h
  rcases hx : x w with _ | e | ⟨e | a, w₁⟩ <;> rw [hx] at h
  · cases h
  · cases h
  · cases h
  · exact ⟨a, w₁, hx, h⟩

end

/-- The run ends because its firings are used up. -/
def Exhausts {α : Type} (x : M T (Except SimFailure α)) (w : T.World) : Prop :=
  ∃ w', Yields x w (.error exhausted) w'

def runsOut {α : Type} : Option (Except (Failure T) (Except SimFailure α × T.World)) → Bool
  | some (.ok (.error f, _)) => f = exhausted
  | _ => false

theorem exhausts_iff {α : Type} {x : M T (Except SimFailure α)} {w : T.World} :
    Exhausts x w ↔ runsOut (x w) = true := by
  constructor
  · rintro ⟨w', hx⟩
    rw [show x w = _ from hx]
    exact decide_eq_true (rfl : exhausted = exhausted)
  · intro h
    rcases hx : x w with _ | e | ⟨f | a, w'⟩ <;> rw [hx] at h
    · cases h
    · cases h
    · exact ⟨w', by rw [Yields, hx, of_decide_eq_true h]⟩
    · cases h

theorem exhausts_andThen {α β : Type} {x : M T (Except SimFailure α)} {f : α → M T (Except SimFailure β)}
    {w w' : T.World} {a : α} (hx : Yields x w (.ok a) w') (h : Exhausts (f a) w') : Exhausts (andThen x f) w := by
  obtain ⟨w₂, hw₂⟩ := h
  exact ⟨w₂, (andThen_ok hx).trans hw₂⟩

/-! ## Advances add up -/

theorem age_age (a b : Int) (timers : List (TimerKey × Int)) : age b (age a timers) = age (a + b) timers := by
  rw [age, age, age, List.map_map]
  exact List.map_congr_left fun e _ => congrArg (Prod.mk e.1) (Int.sub_sub ..)

theorem without_age (a : Int) (key : TimerKey) (timers : List (TimerKey × Int)) :
    without key (age a timers) = age a (without key timers) := by
  rw [without, without, age, age, List.filter_map]
  rfl

/-- The timer that is due does not depend on the time at which one looks. -/
theorem dueTimer_age (a b : Int) (timers : List (TimerKey × Int)) :
    dueTimer b (age a timers) = (dueTimer (a + b) timers).map fun e => (e.1, e.2 - a) := by
  have hfilter : (age a timers).filter (fun e => e.2 ≤ b) =
      (timers.filter fun e => e.2 ≤ a + b).map fun e => (e.1, e.2 - a) := by
    rw [age, List.filter_map]
    congr 2
    funext e
    exact decide_eq_decide.2 (by show e.2 - a ≤ b ↔ e.2 ≤ a + b; omega)
  rw [dueTimer, dueTimer, hfilter, least_map]
  congr 1
  exact least_congr fun x _ y _ => by omega

/-- A timer that is due in a window is due in a longer one. -/
theorem dueTimer_mono {a b : Int} {timers : List (TimerKey × Int)} {e : TimerKey × Int} (h : dueTimer a timers = some e)
    (hab : a ≤ b) : dueTimer b timers = some e :=
  least_filter_mono hab h

section

variable {fuel : Nat} {impl : ChartImpl T} {st : SimResult T} {a b : Int} {w : T.World}

theorem elapse_elapse (st : SimResult T) (a b : Int) : (st.elapse a).elapse b = st.elapse (a + b) := by
  simp only [SimResult.elapse, age_age, Agenda.pass_pass]

theorem fire_elapse (st : SimResult T) (key : TimerKey) (a r : Int) :
    (st.elapse a).fire key (r - a) = st.fire key r := by
  have hage : age (r - a) (without key (age a st.simPendingTimers)) = age r (without key st.simPendingTimers) := by
    rw [without_age, age_age]
    congr 1
    omega
  simp only [SimResult.elapse, SimResult.fire, hage, Agenda.fire_pass]

/-- Time that passes without a firing may be added to the window. -/
theorem advanceBy_elapse (hrun : isFinished st.simMachine = false) (a b : Int) (n : Nat) :
    advanceBy fuel impl n b (st.elapse a) = advanceBy fuel impl n (a + b) st := by
  cases n with
  | zero => rfl
  | succ n =>
    have hrun' : isFinished (st.elapse a).simMachine = false := hrun
    have hdue : dueTimer b (st.elapse a).simPendingTimers = _ := dueTimer_age a b st.simPendingTimers
    simp only [advanceBy, hrun, hrun', hdue, Bool.false_eq_true, if_false]
    cases dueTimer (a + b) st.simPendingTimers with
    | none => simp only [Option.map_none, elapse_elapse]
    | some e =>
      have hrest : b - (e.2 - a) = a + b - e.2 := by omega
      simp only [Option.map_some, fire_elapse, hrest]

/-- More firings than enough change nothing. -/
theorem advanceBy_mono {n n' : Nat} (hn : n ≤ n') (dt : Int) (st : SimResult T) (w : T.World)
    (h : ¬Exhausts (advanceBy fuel impl n dt st) w) :
    advanceBy fuel impl n' dt st w = advanceBy fuel impl n dt st w := by
  induction n generalizing n' dt st w with
  | zero => exact absurd ⟨w, rfl⟩ h
  | succ n ih =>
    cases n' with
    | zero => exact absurd hn (Nat.not_succ_le_zero n)
    | succ n' =>
      simp only [advanceBy] at h ⊢
      split_ifs at h ⊢ with hfin
      · rfl
      · cases hdue : dueTimer dt st.simPendingTimers with
        | none => rfl
        | some e =>
          simp only [hdue] at h
          refine andThen_congr fun st' w' hst => ih (Nat.le_of_succ_le_succ hn) _ st' w' fun hex => h ?_
          exact exhausts_andThen hst hex

/-- **An advance after an advance is one advance**, with the firings of both. -/
theorem advanceBy_add {n n' : Nat} (hn' : 0 < n') (hb : 0 ≤ b) (st : SimResult T) (a : Int) (w : T.World)
    (h : ¬Exhausts (andThen (advanceBy fuel impl n a st) (advanceBy fuel impl n' b)) w) :
    advanceBy fuel impl (n + n') (a + b) st w = andThen (advanceBy fuel impl n a st) (advanceBy fuel impl n' b) w := by
  induction n generalizing a st w with
  | zero => exact absurd ⟨w, andThen_error⟩ h
  | succ n ih =>
    have hfuel : n + 1 + n' = n + n' + 1 := by omega
    by_cases hfin : isFinished st.simMachine
    · obtain ⟨n'', rfl⟩ := Nat.exists_eq_succ_of_ne_zero hn'.ne'
      have hfirst : advanceBy fuel impl (n + 1) a st = pure (.ok st) := if_pos hfin
      rw [hfirst, pure_andThen, hfuel, advanceBy, if_pos hfin, advanceBy, if_pos hfin]
    · cases hdue : dueTimer a st.simPendingTimers with
      | none =>
        have hfirst : advanceBy fuel impl (n + 1) a st = pure (.ok (st.elapse a)) := by
          simp only [advanceBy, if_neg hfin, hdue]
        rw [hfirst, pure_andThen, advanceBy_elapse (Bool.eq_false_of_not_eq_true hfin)] at h ⊢
        exact advanceBy_mono (Nat.le_add_left _ _) _ st w h
      | some e =>
        have hdue' := dueTimer_mono hdue (Int.le_add_of_nonneg_right hb)
        have hfirst : advanceBy fuel impl (n + 1) a st =
            andThen (stepSim fuel impl (st.fire e.1 e.2) (.timer e.1)) (advanceBy fuel impl n (a - e.2)) := by
          simp only [advanceBy, if_neg hfin, hdue]
        have hboth : advanceBy fuel impl (n + 1 + n') (a + b) st =
            andThen (stepSim fuel impl (st.fire e.1 e.2) (.timer e.1))
              (advanceBy fuel impl (n + n') (a - e.2 + b)) := by
          have hrest : a + b - e.2 = a - e.2 + b := by omega
          simp only [hfuel, advanceBy, if_neg hfin, hdue', hrest]
        rw [hfirst, andThen_assoc] at h ⊢
        rw [hboth]
        refine andThen_congr fun st' w' hst => ih st' (a - e.2) w' fun hex => h ?_
        exact exhausts_andThen hst hex

end

/-! ## The order of the firings -/

/-- The pending timers are those of the agenda, and the agenda is in order. -/
structure Tracks (st : SimResult T) : Prop where
  pending : st.simPendingTimers = st.agenda.remaining
  ordered : st.agenda.Ordered

section

variable {fuel : Nat} {impl : ChartImpl T} {st st' : SimResult T} {w w' : T.World}

theorem Tracks.applyEffect (h : Tracks st) (e : EffectReq) : Tracks (applyEffect st e) := by
  cases e with
  | startTimer k =>
    refine ⟨?_, h.ordered.arm k (Int.natCast_nonneg _)⟩
    show without k st.simPendingTimers ++ _ = (st.agenda.arm k k.delayMs).remaining
    rw [h.pending, Agenda.remaining_arm]
    rfl
  | cancelTimer k =>
    refine ⟨?_, h.ordered.cancel k⟩
    show without k st.simPendingTimers = (st.agenda.cancel k).remaining
    rw [h.pending, Agenda.remaining_cancel]
    rfl
  | startInvoke i src n => exact ⟨h.pending, h.ordered⟩
  | cancelInvoke i => exact ⟨h.pending, h.ordered⟩

theorem Tracks.applyStepped (h : Tracks st) (stepped : Stepped T) : Tracks (applyStepped st stepped) := by
  unfold Debug.applyStepped
  generalize hst : ({ st with
    simMachine := stepped.machine
    simTrace := st.simTrace ++ stepped.trace
    simEffectLog := st.simEffectLog ++ stepped.effects } : SimResult T) = st₁
  have h₁ : Tracks st₁ := by
    subst hst
    exact ⟨h.pending, h.ordered⟩
  generalize stepped.effects = es
  clear hst
  induction es generalizing st₁ with
  | nil => exact h₁
  | cons e es ih => exact ih _ (h₁.applyEffect e)

theorem Tracks.stepSim (h : Tracks st) {ev : StepEvent T} (hs : Yields (stepSim fuel impl st ev) w (.ok st') w') :
    Tracks st' := by
  obtain ⟨r, w₁, -, hr⟩ := yields_bind.1 hs
  rcases r with f | stepped
  · cases (yields_pure.1 hr).1
  · obtain ⟨heq, -⟩ := yields_pure.1 hr
    cases heq
    exact h.applyStepped stepped

/-- The timer that fires is the first alarm of the agenda. -/
theorem Tracks.fire (h : Tracks st) {dt : Int} {e : TimerKey × Int} (hdue : dueTimer dt st.simPendingTimers = some e) :
    e.2 ≤ dt ∧ Tracks (st.fire e.1 e.2) := by
  obtain ⟨hle, before, after, hsplit, hbefore, hafter⟩ := least_filter_eq_some hdue
  refine ⟨hle, ?_, ?_⟩
  · show age e.2 (without e.1 st.simPendingTimers) = _
    rw [h.pending]
    exact (Agenda.remaining_fire ..).symm
  · rw [h.pending, Agenda.remaining] at hsplit
    obtain ⟨pre, rest, hpending, rfl, hrest⟩ := List.map_eq_append_iff.1 hsplit
    obtain ⟨x, post, rfl, rfl, rfl⟩ := List.map_eq_cons_iff.1 hrest
    refine h.ordered.fire hpending (fun y hy => ?_) fun y hy => ?_
    · have := hbefore _ (List.mem_map_of_mem hy)
      simp only at this
      omega
    · have := hafter _ (List.mem_map_of_mem hy)
      simp only at this
      omega

/-- Time passes where no timer is due. -/
theorem Tracks.elapse (h : Tracks st) {dt : Int} (hdt : 0 ≤ dt) (hdue : dueTimer dt st.simPendingTimers = none) :
    Tracks (st.elapse dt) := by
  refine ⟨?_, h.ordered.pass hdt fun x hx => ?_⟩
  · show age dt st.simPendingTimers = _
    rw [h.pending]
    exact (Agenda.remaining_pass ..).symm
  · have hnone := least_eq_none.1 hdue
    rw [h.pending, List.filter_eq_nil_iff] at hnone
    have hlate := hnone _ (List.mem_map_of_mem hx)
    simp only [decide_eq_true_eq, not_le] at hlate
    omega

theorem Tracks.advanceBy {n : Nat} {dt : Int} (h : Tracks st) (hdt : 0 ≤ dt)
    (hs : Yields (advanceBy fuel impl n dt st) w (.ok st') w') : Tracks st' := by
  induction n generalizing dt st w with
  | zero => cases (yields_pure.1 hs).1
  | succ n ih =>
    rw [Debug.advanceBy] at hs
    split_ifs at hs
    · obtain ⟨heq, -⟩ := yields_pure.1 hs
      cases heq
      exact h
    · cases hdue : dueTimer dt st.simPendingTimers with
      | none =>
        simp only [hdue] at hs
        obtain ⟨heq, -⟩ := yields_pure.1 hs
        cases heq
        exact h.elapse hdt hdue
      | some e =>
        simp only [hdue] at hs
        obtain ⟨st₁, w₁, hfire, hrest⟩ := yields_andThen hs
        obtain ⟨hle, hfired⟩ := h.fire hdue
        exact ih (hfired.stepSim hfire) (Int.sub_nonneg_of_le hle) hrest

variable {decodeEvent : String → J → Except String T.EventVal}

theorem Tracks.settle (h : Tracks st) {i : String} {ev : StepEvent T}
    (hs : Yields (settle fuel impl st i ev) w (.ok st') w') : Tracks st' := by
  unfold Debug.settle at hs
  split_ifs at hs
  · have h₁ : Tracks { st with simActiveInvokes := st.simActiveInvokes.filter fun e => e.1 ≠ i } :=
      ⟨h.pending, h.ordered⟩
    exact h₁.stepSim hs
  · cases (yields_pure.1 hs).1

theorem Tracks.runCommand (h : Tracks st) {c : SimCommand T J}
    (hs : Yields (runCommand fuel impl decodeEvent st c) w (.ok st') w') : Tracks st' := by
  cases c with
  | send ev => exact h.stepSim hs
  | sendNamed name payload =>
    simp only [Debug.runCommand] at hs
    cases hdecode : decodeEvent name payload with
    | error err =>
      simp only [hdecode] at hs
      cases (yields_pure.1 hs).1
    | ok ev =>
      simp only [hdecode] at hs
      exact h.stepSim hs
  | advance dt =>
    simp only [Debug.runCommand] at hs
    split_ifs at hs with hneg
    · cases (yields_pure.1 hs).1
    · exact h.advanceBy (not_lt.1 hneg) hs
  | resolve i v => exact h.settle hs
  | reject i v => exact h.settle hs

theorem Tracks.runScript {script : List (SimCommand T J)} (h : Tracks st)
    (hs : Yields (runScript fuel impl decodeEvent script st) w (.ok st') w') : Tracks st' := by
  induction script generalizing st w with
  | nil =>
    obtain ⟨heq, -⟩ := yields_pure.1 hs
    cases heq
    exact h
  | cons c rest ih =>
    rw [Debug.runScript] at hs
    split_ifs at hs
    · obtain ⟨heq, -⟩ := yields_pure.1 hs
      cases heq
      exact h
    · obtain ⟨st₁, w₁, hc, hrest⟩ := yields_andThen hs
      exact ih (h.runCommand hc) hrest

theorem simulate_tracks {ctx0 : T.Ctx} {script : List (SimCommand T J)}
    (hs : Yields (simulate fuel impl decodeEvent ctx0 script) w (.ok st) w') : Tracks st := by
  obtain ⟨r, w₁, -, hr⟩ := yields_bind.1 hs
  rcases r with f | stepped
  · cases (yields_pure.1 hr).1
  · have hblank : Tracks (blank stepped.machine) := ⟨rfl, Agenda.Ordered.empty⟩
    exact (hblank.applyStepped stepped).runScript hr

end

/-! ## Virtual time -/

section

variable (fuel : Nat) (impl : ChartImpl T) (decodeEvent : String → J → Except String T.EventVal)

theorem runScript_advance {st : SimResult T} (hrun : ¬isFinished st.simMachine) {a : Int} (ha : 0 ≤ a)
    (rest : List (SimCommand T J)) : runScript fuel impl decodeEvent (.advance a :: rest) st =
      andThen (advanceBy fuel impl advanceFuel a st) (runScript fuel impl decodeEvent rest) := by
  rw [runScript, if_neg hrun, runCommand, if_neg (not_lt.2 ha)]

theorem runScript_advance_last {a : Int} (ha : 0 ≤ a) (st : SimResult T) :
    runScript fuel impl decodeEvent [.advance a] st = advanceBy fuel impl advanceFuel a st := by
  by_cases hfin : isFinished st.simMachine
  · rw [runScript, if_pos hfin]
    exact (if_pos hfin).symm
  · rw [runScript_advance fuel impl decodeEvent hfin ha]
    exact andThen_pure _

end

/-! ### Two states and a timer -/

def lampTypes : Types := ⟨Unit, Unit, String, Unit, Unit, Empty, id⟩

/-- The lamp goes off after ten milliseconds, and on again after five. -/
def lamp : RChart where
  name := "lamp"
  initial := "on"
  nodes := AssocMap.fromList [
    ("on", ⟨"on", .atomic, rootName, [], [⟨.after 10, none, ["off"], [], false, 0⟩], [], [], [], none, 0, 1⟩),
    ("off", ⟨"off", .atomic, rootName, [], [⟨.after 5, none, ["on"], [], false, 0⟩], [], [], [], none, 1, 1⟩)]
  topLevel := ["on", "off"]
  events := []
  rootTransitions := []
  rootInvokes := []
  rootEntry := []

def lampImpl : ChartImpl lampTypes where
  chart := lamp
  guards _ := none
  actions _ := none
  outputs _ := none
  final _ := ()
  label _ := ""

def lampOn : SimResult lampTypes where
  simMachine := ⟨["on"], (), [], .running⟩
  simTrace := []
  simEffectLog := []
  simPendingTimers := [(⟨"on", 10, 0⟩, 10)]
  simActiveInvokes := []
  agenda := Agenda.empty.arm ⟨"on", 10, 0⟩ 10

def noEvents : String → Unit → Except String String := fun _ _ => .error "no such event"

theorem lamp_ends : runsOut (runScript 5 lampImpl noEvents [.advance 7, .advance 9] lampOn ()) = false ∧
    runsOut (runScript 5 lampImpl noEvents [.advance (7 + 9)] lampOn ()) = false := by
  decide +kernel

end Wireform.StateMachine.Debug
