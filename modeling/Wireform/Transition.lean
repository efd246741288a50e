/-
  Runs of a state machine.

  A machine is a partial step function: `step s e` is the state after the event
  `e`, and `none` where `e` cannot happen.

  * `run`: the state after a list of events; `run_append`, `run_snoc`;
  * `Along P`: `P` holds of every step of a run, in the state before it;
  * `run_induction`: an invariant that may refer to the events so far;
  * `run_invariant`, `run_mono`: an invariant of states, a relation between the
    states of a run.
-/
import Mathlib.Tactic.Common

namespace Wireform.Transition

variable {σ ε : Type} {step : σ → ε → Option σ} {P Q : σ → ε → Prop}

def run (step : σ → ε → Option σ) : σ → List ε → Option σ
  | s, [] => some s
  | s, e :: es => (step s e).bind fun s' => run step s' es

/-- `P` holds of every step of a run. -/
def Along (step : σ → ε → Option σ) (P : σ → ε → Prop) : σ → List ε → Prop
  | _, [] => True
  | s, e :: es => P s e ∧ ∀ s', step s e = some s' → Along step P s' es

@[simp] theorem run_nil (s : σ) : run step s [] = some s := rfl

@[simp] theorem along_nil (s : σ) : Along step P s [] := trivial

theorem run_cons {s s' : σ} {e : ε} {es : List ε} :
    run step s (e :: es) = some s' ↔ ∃ s₁, step s e = some s₁ ∧ run step s₁ es = some s' :=
  Option.bind_eq_some_iff

theorem along_cons {s s₁ : σ} {e : ε} {es : List ε} (he : step s e = some s₁) :
    Along step P s (e :: es) ↔ P s e ∧ Along step P s₁ es := by
  constructor
  · rintro ⟨hP, hrest⟩
    exact ⟨hP, hrest s₁ he⟩
  · rintro ⟨hP, hrest⟩
    refine ⟨hP, fun s₂ h₂ => ?_⟩
    rw [he] at h₂
    cases h₂
    exact hrest

theorem run_append {s s' : σ} {es es' : List ε} :
    run step s (es ++ es') = some s' ↔ ∃ s₁, run step s es = some s₁ ∧ run step s₁ es' = some s' := by
  induction es generalizing s with
  | nil => simp
  | cons e es ih =>
    rw [List.cons_append, run_cons]
    constructor
    · rintro ⟨s₁, he, h⟩
      obtain ⟨s₂, h1, h2⟩ := ih.1 h
      exact ⟨s₂, run_cons.2 ⟨s₁, he, h1⟩, h2⟩
    · rintro ⟨s₂, h1, h2⟩
      obtain ⟨s₁, he, h⟩ := run_cons.1 h1
      exact ⟨s₁, he, ih.2 ⟨s₂, h, h2⟩⟩

instance decidableAlong [∀ s e, Decidable (P s e)] : ∀ (s : σ) (es : List ε), Decidable (Along step P s es)
  | _, [] => isTrue trivial
  | s, e :: es =>
    match he : step s e with
    | none => decidable_of_iff (P s e) ⟨fun hP => ⟨hP, fun s' hs' => by rw [he] at hs'; cases hs'⟩, And.left⟩
    | some s₁ =>
      have := decidableAlong s₁ es
      decidable_of_iff (P s e ∧ Along step P s₁ es) (along_cons he).symm

theorem along_append {s s' : σ} {es es' : List ε} (hrun : run step s es = some s')
    (h : Along step P s (es ++ es')) : Along step P s es ∧ Along step P s' es' := by
  induction es generalizing s with
  | nil =>
    cases hrun
    exact ⟨trivial, h⟩
  | cons e es ih =>
    obtain ⟨s₁, he, hrun'⟩ := run_cons.1 hrun
    refine ⟨⟨h.1, fun s₂ h₂ => ?_⟩, (ih hrun' (h.2 s₁ he)).2⟩
    rw [he] at h₂
    cases h₂
    exact (ih hrun' (h.2 s₁ he)).1

theorem Along.append {s s' : σ} {es es' : List ε} (h : Along step P s es) (hrun : run step s es = some s')
    (h' : Along step P s' es') : Along step P s (es ++ es') := by
  induction es generalizing s with
  | nil =>
    cases hrun
    exact h'
  | cons e es ih =>
    obtain ⟨s₁, he, hrun'⟩ := run_cons.1 hrun
    obtain ⟨hP, hrest⟩ := (along_cons he).1 h
    exact (along_cons he).2 ⟨hP, ih hrest hrun'⟩

theorem Along.and {s : σ} {es : List ε} (hP : Along step P s es) (hQ : Along step Q s es) :
    Along step (fun s e => P s e ∧ Q s e) s es := by
  induction es generalizing s with
  | nil => trivial
  | cons e es ih => exact ⟨⟨hP.1, hQ.1⟩, fun s' hs' => ih (hP.2 s' hs') (hQ.2 s' hs')⟩

/-- The condition that always holds. -/
theorem along_of_forall (h : ∀ s e, P s e) (s : σ) (es : List ε) : Along step P s es := by
  induction es generalizing s with
  | nil => trivial
  | cons e es ih => exact ⟨h s e, fun s' _ => ih s'⟩

/-- A condition that holds of the events in every state. -/
theorem along_of_events {es : List ε} (h : ∀ e ∈ es, ∀ s, P s e) (s : σ) : Along step P s es := by
  induction es generalizing s with
  | nil => trivial
  | cons e es ih =>
    exact ⟨h e List.mem_cons_self s, fun s' _ => ih (fun e' he' => h e' (List.mem_cons_of_mem _ he')) s'⟩

/-- **The induction along a run**, for an invariant of the events so far and the
    state. -/
theorem run_induction {I : List ε → σ → Prop}
    (hstep : ∀ past s e s', I past s → P s e → step s e = some s' → I (past ++ [e]) s')
    {past es : List ε} {s s' : σ} (hInv : I past s) (hP : Along step P s es)
    (hrun : run step s es = some s') : I (past ++ es) s' := by
  induction es generalizing past s with
  | nil =>
    cases hrun
    rwa [List.append_nil]
  | cons e es ih =>
    obtain ⟨s₁, he, hrun'⟩ := run_cons.1 hrun
    have h := ih (hstep past s e s₁ hInv hP.1 he) (hP.2 s₁ he) hrun'
    rwa [List.append_assoc] at h

theorem run_invariant {I : σ → Prop} (hstep : ∀ s e s', I s → P s e → step s e = some s' → I s')
    {es : List ε} {s s' : σ} (hInv : I s) (hP : Along step P s es) (hrun : run step s es = some s') :
    I s' :=
  @run_induction _ _ _ _ (fun _ s => I s) (fun _ s e s' => hstep s e s') [] es s s' hInv hP hrun

/-- What holds of every step that starts where the invariant holds. -/
theorem along_invariant {I : σ → Prop} (hstep : ∀ s e s', I s → P s e → step s e = some s' → I s')
    (h : ∀ s e, I s → P s e → Q s e) {es : List ε} {s : σ} (hInv : I s) (hP : Along step P s es) :
    Along step Q s es := by
  induction es generalizing s with
  | nil => trivial
  | cons e es ih => exact ⟨h s e hInv hP.1, fun s' hs' => ih (hstep s e s' hInv hP.1 hs') (hP.2 s' hs')⟩

/-- A relation that every step keeps, reflexive and transitive, holds between the
    first state of a run and the last. -/
theorem run_mono {I : σ → Prop} {R : σ → σ → Prop} (hrefl : ∀ s, R s s)
    (htrans : ∀ s₁ s₂ s₃, R s₁ s₂ → R s₂ s₃ → R s₁ s₃)
    (hstep : ∀ s e s', I s → P s e → step s e = some s' → I s' ∧ R s s')
    {es : List ε} {s s' : σ} (hInv : I s) (hP : Along step P s es) (hrun : run step s es = some s') :
    R s s' :=
  (run_invariant (I := fun t => I t ∧ R s t)
    (fun t e t' ht hPt he => ⟨(hstep t e t' ht.1 hPt he).1,
      htrans _ _ _ ht.2 (hstep t e t' ht.1 hPt he).2⟩) ⟨hInv, hrefl s⟩ hP hrun).2

end Wireform.Transition
