/-
  Minimised bugs under replay.

  * `pending_advanceClock`: the clock cannot be advanced forever, so the loops
    of `toOps` and `opsToPath` end (`settle_ends`);
  * `Together`: two paths whose drives make the same moves; `driveLoop_together`:
    they end alike;
  * `InStep`: a path whose translation replays it: every entry is taken, after
    waits in which its translation does not apply either, or it is skipped where
    there is nothing to wait for;
  * `minimizeBug_fails`: where the bug's path and the candidates are in step, the
    minimal input fails as the bug does; `minimised_silent`: one that does not.
-/
import Wireform.Sim.Localize
import Wireform.Sim.Frame
import Wireform.Sim.Reproduce

namespace Wireform.Sim

open AssocMap

variable {P : Platform}

/-! ## The waits end -/

theorem countP_lt {α : Type} {l : List α} {p q : α → Bool} (h : ∀ x ∈ l, q x = true → p x = true) {x : α} (hx : x ∈ l)
    (hp : p x = true) (hq : q x = false) : l.countP q < l.countP p := by
  obtain ⟨s, t, rfl⟩ := List.append_of_mem hx
  have hs : s.countP q ≤ s.countP p := List.countP_mono_left fun y hy => h y (List.mem_append_left _ hy)
  have ht : t.countP q ≤ t.countP p :=
    List.countP_mono_left fun y hy => h y (List.mem_append_right _ (List.mem_cons_of_mem _ hy))
  rw [List.countP_append, List.countP_append, List.countP_cons, List.countP_cons, hp, hq]
  simp
  omega

theorem wakeFib_wakeTime {fb : Fiber P} (h : fb.Agrees) (clk : SimTime) :
    (wakeFib clk fb).status.wakeTime = fb.status.wakeTime.filter fun t => clk < t := by
  obtain ⟨n, res, st⟩ := fb
  cases st with
  | blockedTimer t =>
    obtain ⟨p, rfl⟩ := h
    by_cases hle : t ≤ clk
    · simp [wakeFib, FiberStatus.wakeTime, hle, Option.filter, UInt64.not_lt.2 hle]
    · simp [wakeFib, FiberStatus.wakeTime, hle, Option.filter, UInt64.not_le.1 hle]
  | runnable | blockedRecv | dead => simp [wakeFib, FiberStatus.wakeTime]

theorem unpause_pausedUntil (ns : NodeState P) (clk : SimTime) :
    (unpause clk ns).pausedUntil = ns.pausedUntil.filter fun t => clk < t := by
  cases hp : ns.pausedUntil with
  | none => simp [unpause, hp]
  | some t =>
    by_cases hle : t ≤ clk
    · simp [unpause, hp, hle, Option.filter, UInt64.not_lt.2 hle]
    · simp [unpause, hp, hle, Option.filter, UInt64.not_le.1 hle]

theorem isSome_of_filter {α : Type} {o : Option α} {q : α → Bool} (h : (o.filter q).isSome = true) : o.isSome = true := by
  cases o with
  | none => exact h
  | some x => rfl

theorem filter_isSome_false {o : Option SimTime} {t clk : SimTime} (ho : o = some t) (hle : t ≤ clk) :
    (o.filter fun t => decide (clk < t)).isSome = false := by
  subst ho
  simp [Option.filter, UInt64.not_lt.2 hle]

/-- A wake time of the world that `wakeDue` at `clk` removes. -/
inductive Removed (w : World P) (clk : SimTime) : Prop
  | timer {f : FiberId} {fb : Fiber P} {t : SimTime} (hf : (f, fb) ∈ w.fibers) (ht : fb.status.wakeTime = some t)
      (hle : t ≤ clk)
  | pause {n : NodeId} {ns : NodeState P} {t : SimTime} (hn : (n, ns) ∈ w.nodes) (ht : ns.pausedUntil = some t)
      (hle : t ≤ clk)
  | clog {e : NodeId ×ₗ NodeId} {lp : LinkPolicy} {t : SimTime} (hl : (e, lp) ∈ w.links) (ht : lp.clogUntil = some t)
      (hlt : w.clock < t) (hle : t ≤ clk)
  | message {m : MsgId} {inf : InFlight} (hm : (m, inf) ∈ w.inFlight) (hlt : w.clock < inf.dueAt) (hle : inf.dueAt ≤ clk)

theorem pending_wakeDue {w : World P} (hg : Good w) {clk : SimTime} (hclk : w.clock ≤ clk) (h : Removed w clk) :
    pending (wakeDue { w with clock := clk }) < pending w := by
  have hagrees : ∀ e ∈ w.fibers, e.2.Agrees := fun e he => hg.agrees e.1 e.2 ((hg.fibers.mem_iff e.1 e.2).1 he)
  have hfib : ∀ e ∈ w.fibers, (wakeFib clk e.2).status.wakeTime.isSome = true → e.2.status.wakeTime.isSome = true := by
    intro e he hs
    rw [wakeFib_wakeTime (hagrees e he)] at hs
    exact isSome_of_filter hs
  have hnode : ∀ e ∈ w.nodes, (unpause clk e.2).pausedUntil.isSome = true → e.2.pausedUntil.isSome = true := by
    intro e _ hs
    rw [unpause_pausedUntil] at hs
    exact isSome_of_filter hs
  have hlink : ∀ e ∈ w.links, (e.2.clogUntil.any fun t => clk < t) = true →
      (e.2.clogUntil.any fun t => w.clock < t) = true := by
    intro e _ hs
    cases hc : e.2.clogUntil with
    | none => rw [hc] at hs; cases hs
    | some t =>
      rw [hc] at hs
      exact decide_eq_true (UInt64.lt_of_le_of_lt hclk (of_decide_eq_true hs))
  have hmsg : ∀ e ∈ w.inFlight, decide (clk < e.2.dueAt) = true → decide (w.clock < e.2.dueAt) = true :=
    fun e _ hs => decide_eq_true (UInt64.lt_of_le_of_lt hclk (of_decide_eq_true hs))
  have hfib' := List.countP_mono_left hfib
  have hnode' := List.countP_mono_left hnode
  have hlink' := List.countP_mono_left hlink
  have hmsg' := List.countP_mono_left hmsg
  have heq : pending (wakeDue { w with clock := clk }) =
      w.fibers.countP (fun e => (wakeFib clk e.2).status.wakeTime.isSome) +
      w.nodes.countP (fun e => (unpause clk e.2).pausedUntil.isSome) +
      w.links.countP (fun e => e.2.clogUntil.any fun t => clk < t) + w.inFlight.countP (fun e => clk < e.2.dueAt) := by
    simp only [pending, wakeDue, List.countP_map]
    rfl
  rw [heq, pending]
  cases h with
  | timer hf ht hle =>
    have := countP_lt hfib hf (Option.isSome_iff_exists.2 ⟨_, ht⟩)
      (by rw [wakeFib_wakeTime (hagrees _ hf)]; exact filter_isSome_false ht hle)
    omega
  | pause hn ht hle =>
    have := countP_lt hnode hn (Option.isSome_iff_exists.2 ⟨_, ht⟩)
      (by rw [unpause_pausedUntil]; exact filter_isSome_false ht hle)
    omega
  | clog hl ht hlt hle =>
    have := countP_lt hlink hl (by rw [ht]; exact decide_eq_true hlt)
      (by rw [ht]; exact decide_eq_false (UInt64.not_lt.2 hle))
    omega
  | message hm hlt hle =>
    have := countP_lt hmsg hm (decide_eq_true hlt) (decide_eq_false (UInt64.not_lt.2 hle))
    omega

theorem any_due {o : Option SimTime} {clk : SimTime} (h : (o.map fun t => decide (t ≤ clk)).getD false = true) :
    ∃ t, o = some t ∧ t ≤ clk := by
  cases o with
  | none => cases h
  | some t => exact ⟨t, rfl, of_decide_eq_true h⟩

/-- **An advance leaves less to wait for.** -/
theorem pending_advanceClock {w : World P} (hg : Good w) (hadv : canAdvanceTime w = true) :
    pending (advanceClock w) < pending w := by
  unfold advanceClock
  by_cases hdue : dueNow w = true
  · rw [if_pos hdue]
    refine pending_wakeDue hg (UInt64.le_refl _) ?_
    rcases Bool.or_eq_true_iff.1 hdue with hany | hany
    · obtain ⟨⟨f, fb⟩, he, ht⟩ := List.any_eq_true.1 hany
      obtain ⟨t, ht, hle⟩ := any_due ht
      exact .timer he ht hle
    · obtain ⟨⟨n, ns⟩, he, ht⟩ := List.any_eq_true.1 hany
      obtain ⟨t, ht, hle⟩ := any_due ht
      exact .pause he ht hle
  · rw [if_neg hdue]
    cases hearliest : earliestFuture w with
    | none => simp [canAdvanceTime, hdue, hearliest] at hadv
    | some t =>
      have hmem := List.min?_mem hearliest
      rw [List.mem_filter, decide_eq_true_eq] at hmem
      obtain ⟨hmem, hlt⟩ := hmem
      refine pending_wakeDue hg (UInt64.le_of_lt hlt) ?_
      simp only [wakeTimes, List.mem_append, List.mem_filterMap, List.mem_map] at hmem
      rcases hmem with ((⟨⟨f, fb⟩, he, ht⟩ | ⟨⟨n, ns⟩, he, ht⟩) | ⟨⟨e, lp⟩, he, ht⟩) | ⟨⟨m, inf⟩, he, rfl⟩
      · exact .timer he ht (UInt64.le_refl _)
      · exact .pause he ht (UInt64.le_refl _)
      · exact .clog he ht hlt (UInt64.le_refl _)
      · exact .message he hlt (UInt64.le_refl _)

section
variable {ι κ : Type} {resolve : World P → ι → Option (Decision × κ)} {x : ι}

/-- Fuel beyond what is pending makes no difference. -/
theorem settle_fuel : ∀ {n m : Nat} {w : World P}, Good w → pending w ≤ n → pending w ≤ m →
    settle resolve x n w = settle resolve x m w := by
  -- without fuel there is nothing to wait for
  have hzero : ∀ {w : World P}, Good w → pending w ≤ 0 → ∀ m, settle resolve x m w = w := by
    intro w hg h m
    cases m with
    | zero => rfl
    | succ m =>
      have hadv : canAdvanceTime w = false := by
        by_contra hadv
        have := pending_advanceClock hg (by simpa using hadv)
        omega
      simp [settle, hadv]
  intro n
  induction n with
  | zero =>
    intro m w hg h _
    rw [hzero hg h m, settle]
  | succ n ih =>
    intro m w hg hn hm
    cases m with
    | zero => rw [hzero hg hm (n + 1), settle]
    | succ m =>
      rw [settle, settle]
      split_ifs with hcond
      · have := pending_advanceClock hg (Bool.and_eq_true_iff.1 hcond).2
        exact ih (good_advanceClock hg) (by omega) (by omega)
      · rfl

end

/-! ## Two paths in lockstep -/

section
variable {ι κ : Type}

/-- Drives along two paths that make the same moves up to a failure. -/
inductive Together (inv : World P → Bool) (res₁ : World P → ι → Option Decision) (res₂ : World P → κ → Option Decision) :
    World P → List ι → List κ → Prop
  | failed {w : World P} (xs : List ι) (ys : List κ) (hinv : inv w = false) : Together inv res₁ res₂ w xs ys
  | nil (w : World P) : Together inv res₁ res₂ w [] []
  | skip {w : World P} {x : ι} {xs : List ι} {ys : List κ} (hnone : res₁ w x = none) (hadv : canAdvanceTime w = false)
      (hrest : Together inv res₁ res₂ w xs ys) : Together inv res₁ res₂ w (x :: xs) ys
  | wait {w : World P} {x : ι} {y : κ} {xs : List ι} {ys : List κ} (hx : res₁ w x = none) (hy : res₂ w y = none)
      (hadv : canAdvanceTime w = true) (hrest : Together inv res₁ res₂ (advanceClock w) (x :: xs) (y :: ys)) :
      Together inv res₁ res₂ w (x :: xs) (y :: ys)
  | take {w : World P} {x : ι} {y : κ} {d d' : Decision} {r : StepResult P} {xs : List ι} {ys : List κ}
      (hx : res₁ w x = some d) (hy : res₂ w y = some d') (hstep : step w d = .ok r) (hstep' : step w d' = .ok r)
      (hrest : firstAssertFail r.events = none → Together inv res₁ res₂ r.world xs ys) :
      Together inv res₁ res₂ w (x :: xs) (y :: ys)

/-- How a run ends. -/
def ending (res : Except VarError (RunResult P)) : Except VarError (Option FailReason) := res.map RunResult.fail

/-- After the path the entries no longer matter. -/
theorem driveLoop_nil {inv : World P → Bool} {res₁ : World P → ι → Option Decision} {res₂ : World P → κ → Option Decision}
    (fuel : Nat) (w : World P) (acc : List SimEvent) (ms ms' : List Move) :
    ending (driveLoop inv res₁ fuel w [] acc ms) = ending (driveLoop inv res₂ fuel w [] acc ms') := by
  induction fuel generalizing w acc ms ms' with
  | zero => rfl
  | succ fuel ih =>
    by_cases hinv : inv w = true
    · simp only [driveLoop, hinv, Bool.not_true, Bool.false_eq_true, if_false, List.dropWhile_nil]
      cases progress w with
      | some d =>
        dsimp only
        cases step w d with
        | error e => rfl
        | ok r =>
          dsimp only
          cases firstAssertFail r.events with
          | some reason => rfl
          | none => exact ih _ _ _ _
      | none =>
        dsimp only
        by_cases hadv : canAdvanceTime w = true
        · rw [if_pos hadv, if_pos hadv]
          exact ih _ _ _ _
        · rw [if_neg hadv, if_neg hadv]
          rfl
    · simp only [driveLoop, hinv]
      rfl

variable {res : World P → ι → Option Decision} {w : World P}

/-- What the loop does with an entry that waits. -/
theorem driveLoop_wait {inv : World P → Bool} {x : ι}
    (hinv : inv w = true) (hx : res w x = none) (hadv : canAdvanceTime w = true) (fuel : Nat) (xs : List ι)
    (acc : List SimEvent) (ms : List Move) :
    driveLoop inv res (fuel + 1) w (x :: xs) acc ms =
      driveLoop inv res fuel (advanceClock w) (x :: xs) acc (.tick :: ms) := by
  have hdrop : (x :: xs).dropWhile (stale res w) = x :: xs :=
    List.dropWhile_cons_of_neg (by simp [stale, hadv])
  simp only [driveLoop, hinv, Bool.not_true, Bool.false_eq_true, if_false, hdrop, hx]

/-- An entry that is skipped makes no difference. -/
theorem driveLoop_skip {inv : World P → Bool} {x : ι}
    (hx : res w x = none) (hadv : canAdvanceTime w = false) (fuel : Nat) (xs : List ι) (acc : List SimEvent)
    (ms : List Move) : driveLoop inv res fuel w (x :: xs) acc ms = driveLoop inv res fuel w xs acc ms := by
  have hdrop : (x :: xs).dropWhile (stale res w) = xs.dropWhile (stale res w) :=
    List.dropWhile_cons_of_pos (by simp [stale, hx, hadv])
  cases fuel with
  | zero => rfl
  | succ fuel => simp only [driveLoop, hdrop]

theorem driveLoop_broken {inv : World P → Bool} (hinv : inv w = false)
    (fuel : Nat) (xs : List ι) (acc : List SimEvent) (ms : List Move) :
    driveLoop inv res (fuel + 1) w xs acc ms = .ok ⟨w, acc.reverse, some (.invariantBroken "scenario invariant"), ms.reverse⟩ := by
  simp only [driveLoop, hinv, Bool.not_false, if_true]

/-- **Paths in lockstep end alike.** -/
theorem driveLoop_together {inv : World P → Bool} {res₁ : World P → ι → Option Decision} {res₂ : World P → κ → Option Decision}
    {xs : List ι} {ys : List κ} (h : Together inv res₁ res₂ w xs ys) (fuel : Nat) (acc : List SimEvent)
    (ms ms' : List Move) :
    ending (driveLoop inv res₁ fuel w xs acc ms) = ending (driveLoop inv res₂ fuel w ys acc ms') := by
  induction h generalizing fuel acc ms ms' with
  | failed xs ys hinv =>
    cases fuel with
    | zero => rfl
    | succ fuel =>
      rw [driveLoop_broken hinv, driveLoop_broken hinv]
      rfl
  | nil w => exact driveLoop_nil fuel w acc ms ms'
  | skip hnone hadv _ ih =>
    rw [driveLoop_skip hnone hadv]
    exact ih fuel acc ms ms'
  | @wait w x y xs ys hx hy hadv _ ih =>
    cases fuel with
    | zero => rfl
    | succ fuel =>
      by_cases hinv : inv w = true
      · rw [driveLoop_wait hinv hx hadv, driveLoop_wait hinv hy hadv]
        exact ih fuel acc _ _
      · rw [Bool.not_eq_true] at hinv
        rw [driveLoop_broken hinv, driveLoop_broken hinv]
        rfl
  | @take w x y d d' r xs ys hx hy hstep hstep' _ ih =>
    cases fuel with
    | zero => rfl
    | succ fuel =>
      by_cases hinv : inv w = true
      · cases hfail : firstAssertFail r.events with
        | some reason =>
          rw [driveLoop_assertion hinv hx hstep hfail, driveLoop_assertion hinv hy hstep' hfail]
          rfl
        | none =>
          rw [driveLoop_decide hinv hx hstep hfail, driveLoop_decide hinv hy hstep' hfail]
          exact ih hfail fuel _ _ _
      · rw [Bool.not_eq_true] at hinv
        rw [driveLoop_broken hinv, driveLoop_broken hinv]
        rfl

/-! ## Translations -/

/-- An entry is taken, after waits in which its translation does not apply. -/
inductive Settles (resolve : World P → ι → Option (Decision × κ)) (other : World P → κ → Option Decision) (x : ι)
    (d : Decision) (y : κ) : World P → World P → Prop
  | now {w : World P} (hx : resolve w x = some (d, y)) : Settles resolve other x d y w w
  | wait {w v : World P} (hx : resolve w x = none) (hy : other w y = none) (hadv : canAdvanceTime w = true)
      (hrest : Settles resolve other x d y (advanceClock w) v) : Settles resolve other x d y w v

/-- A path in step with its translation: up to the failure every entry is taken
    or is skipped at once, and the walk gets to the end. -/
inductive InStep (inv : World P → Bool) (resolve : World P → ι → Option (Decision × κ))
    (other : World P → κ → Option Decision) : World P → List ι → Prop
  | nil (w : World P) : InStep inv resolve other w []
  | failed {w : World P} {xs : List ι} (hinv : inv w = false) (hwalk : ∃ ys, walk resolve (.ok w) xs = .ok ys) :
      InStep inv resolve other w xs
  | skip {w : World P} {x : ι} {xs : List ι} (hx : resolve w x = none) (hadv : canAdvanceTime w = false)
      (hrest : InStep inv resolve other w xs) : InStep inv resolve other w (x :: xs)
  | take {w v : World P} {x : ι} {d : Decision} {y : κ} {r : StepResult P} {xs : List ι}
      (hx : Settles resolve other x d y w v) (hstep : step v d = .ok r) (hfail : firstAssertFail r.events = none)
      (hrest : InStep inv resolve other r.world xs) : InStep inv resolve other w (x :: xs)
  | asserts {w v : World P} {x : ι} {d : Decision} {y : κ} {r : StepResult P} {reason : FailReason} {xs : List ι}
      (hx : Settles resolve other x d y w v) (hstep : step v d = .ok r) (hfail : firstAssertFail r.events = some reason)
      (hwalk : ∃ ys, walk resolve (.ok r.world) xs = .ok ys) : InStep inv resolve other w (x :: xs)

/-- What an entry resolves to is legal, and its translation does the same. -/
def Agree (resolve : World P → ι → Option (Decision × κ)) (other : World P → κ → Option Decision) : Prop :=
  ∀ w x d y, resolve w x = some (d, y) → d ∈ runnable w ∧ ∃ d', other w y = some d' ∧ step w d' = step w d

variable {inv : World P → Bool} {resolve : World P → ι → Option (Decision × κ)}
  {other : World P → κ → Option Decision}

variable {w v : World P} {d : Decision}

theorem Settles.resolves {x : ι} {y : κ} (h : Settles resolve other x d y w v) :
    resolve v x = some (d, y) := by
  induction h with
  | now hx => exact hx
  | wait _ _ _ _ ih => exact ih

theorem Settles.good {x : ι} {y : κ} (h : Settles resolve other x d y w v) (hg : Good w) :
    Good v := by
  induction h with
  | now _ => exact hg
  | wait _ _ _ _ ih => exact ih (good_advanceClock hg)

/-- The walk waits as long. -/
theorem Settles.settle {x : ι} {d : Decision} {y : κ} {w v : World P} (h : Settles resolve other x d y w v) (hg : Good w) :
    settle resolve x (pending w) w = v := by
  induction h with
  | @now w hx =>
    cases pending w with
    | zero => rfl
    | succ n => simp [Sim.settle, hx]
  | @wait w v hx hy hadv _ ih =>
    have hlt := pending_advanceClock hg hadv
    obtain ⟨n, hn⟩ : ∃ n, pending w = n + 1 := ⟨pending w - 1, by omega⟩
    rw [hn, Sim.settle, hx, hadv]
    have hg' := good_advanceClock hg
    exact (settle_fuel hg' (by omega) le_rfl).trans (ih hg')

theorem Settles.together {x : ι} {y : κ} (h : Settles resolve other x d y w v) {xs : List ι}
    {ys : List κ} (htake : Together inv (fun w x => (resolve w x).map Prod.fst) other v (x :: xs) (y :: ys)) :
    Together inv (fun w x => (resolve w x).map Prod.fst) other w (x :: xs) (y :: ys) := by
  induction h with
  | now _ => exact htake
  | wait hx hy hadv _ ih => exact .wait (by rw [hx]; rfl) hy hadv (ih htake)

/-- An entry that is taken is recorded. -/
theorem walk_take {x : ι} {y : κ} {r : StepResult P} (hg : Good w)
    (hx : Settles resolve other x d y w v) (hstep : step v d = .ok r) {xs : List ι} {ys : List κ}
    (hwalk : walk resolve (.ok r.world) xs = .ok ys) : walk resolve (.ok w) (x :: xs) = .ok (y :: ys) := by
  rw [walk, hx.settle hg]
  simp only [hx.resolves, hstep]
  rw [show (Except.ok r : Except VarError (StepResult P)).map StepResult.world = .ok r.world from rfl, hwalk]
  rfl

/-- **A path in step replays as its translation.** -/
theorem InStep.together (hagree : Agree resolve other) {w : World P} {xs : List ι} (h : InStep inv resolve other w xs)
    (hg : Good w) : ∃ ys, walk resolve (.ok w) xs = .ok ys ∧
      Together inv (fun w x => (resolve w x).map Prod.fst) other w xs ys := by
  -- an entry that is taken, whatever comes of the rest
  have htaken {w v : World P} {x : ι} {d : Decision} {y : κ} {r : StepResult P} {xs : List ι} {ys : List κ} (hg : Good w)
      (hx : Settles resolve other x d y w v) (hstep : step v d = .ok r) (hwalk : walk resolve (.ok r.world) xs = .ok ys)
      (hrest : firstAssertFail r.events = none →
        Together inv (fun w x => (resolve w x).map Prod.fst) other r.world xs ys) :
      ∃ ys, walk resolve (.ok w) (x :: xs) = .ok ys ∧
        Together inv (fun w x => (resolve w x).map Prod.fst) other w (x :: xs) ys := by
    obtain ⟨_, d', hd', hsame⟩ := hagree v x d y hx.resolves
    exact ⟨y :: ys, walk_take hg hx hstep hwalk,
      hx.together (.take (by rw [hx.resolves]; rfl) hd' hstep (hsame.trans hstep) hrest)⟩
  induction h with
  | nil w => exact ⟨[], rfl, .nil w⟩
  | failed hinv hwalk =>
    obtain ⟨ys, hys⟩ := hwalk
    exact ⟨ys, hys, .failed _ _ hinv⟩
  | @skip w x xs hx hadv _ ih =>
    obtain ⟨ys, hys, htog⟩ := ih hg
    refine ⟨ys, ?_, .skip (by rw [hx]; rfl) hadv htog⟩
    have hsettle : settle resolve x (pending w) w = w := by
      cases pending w with
      | zero => rfl
      | succ n => simp [Sim.settle, hadv]
    rw [walk, hsettle]
    simp only [hx]
    exact hys
  | @take w v x d y r xs hx hstep hfail _ ih =>
    have hd := (hagree v x d y hx.resolves).1
    have hg' : Good r.world := good_move (hx.good hg) (moveStep_decide.2 ⟨hd, r.events, hstep⟩)
    obtain ⟨ys, hys, htog⟩ := ih hg'
    exact htaken hg hx hstep hys fun _ => htog
  | asserts hx hstep hfail hwalk =>
    obtain ⟨ys, hys⟩ := hwalk
    exact htaken hg hx hstep hys fun hnone => by rw [hnone] at hfail; cases hfail

end

/-! ## The two translations -/

theorem resolveDecision_some {w : World P} {d d' : Decision} (h : resolveDecision w d = some d') :
    d' = d ∧ d ∈ runnable w := by
  unfold resolveDecision at h
  split_ifs at h with hd
  cases h
  exact ⟨rfl, List.contains_iff_mem.1 hd⟩

/-- A legal decision has a content, which resolves to it or to a fault of the
    same content. -/
theorem toOp_spec {w : World P} {d : Decision} (hd : d ∈ runnable w) :
    ∃ op d', toOp w d = some op ∧ resolveOp w op = some d' ∧ step w d' = step w d := by
  cases d with
  | schedNext f => exact ⟨.sched f, _, rfl, if_pos (List.contains_iff_mem.2 hd), rfl⟩
  | deliverMsg m => exact ⟨.deliver m, _, rfl, if_pos (List.contains_iff_mem.2 hd), rfl⟩
  | fireFault i =>
    obtain ⟨h0, hlt⟩ := fire_mem_runnable.1 hd
    have hin : i.toNat < (availableFaults w.nemesis w).length := by omega
    obtain ⟨op, hop⟩ : ∃ op, (availableFaults w.nemesis w)[i.toNat]? = some op := ⟨_, List.getElem?_eq_getElem hin⟩
    obtain ⟨j, hj⟩ : ∃ j, (availableFaults w.nemesis w).idxOf? op = some j :=
      Option.isSome_iff_exists.1 (List.isSome_idxOf?.2 (List.mem_of_getElem? hop))
    have hjop : (availableFaults w.nemesis w)[(j : Int).toNat]? = some op := by
      obtain ⟨hlen, hval, _⟩ := List.idxOf?_eq_some_iff.1 hj
      rw [Int.toNat_natCast, List.getElem?_eq_getElem hlen]
      exact congrArg some (by simpa using hval)
    refine ⟨.fault op, .fireFault j, by rw [toOp, hop]; rfl, by rw [resolveOp, hj]; rfl, ?_⟩
    simp only [step, if_neg (show ¬ (j : Int) < 0 by omega), if_neg (show ¬ i < 0 by omega), hop, hjop]

theorem resolveOp_legal {w : World P} {op : OpDecision} {d : Decision} (h : resolveOp w op = some d) : d ∈ runnable w := by
  cases op with
  | sched f | deliver m =>
    rw [resolveOp] at h
    split_ifs at h with hd
    cases h
    exact List.contains_iff_mem.1 hd
  | fault op =>
    obtain ⟨j, hj, rfl⟩ := Option.map_eq_some_iff.1 h
    obtain ⟨hlen, _⟩ := List.idxOf?_eq_some_iff.1 hj
    exact fire_mem_runnable.2 ⟨by omega, by omega⟩

theorem agree_withOp : Agree (P := P) withOp resolveOp := by
  intro w x d y h
  obtain ⟨d₁, hd₁, hop⟩ := Option.bind_eq_some_iff.1 h
  obtain ⟨op, hop, heq⟩ := Option.map_eq_some_iff.1 hop
  cases heq
  obtain ⟨rfl, hd⟩ := resolveDecision_some hd₁
  obtain ⟨op', d', hop', hres, hstep⟩ := toOp_spec hd
  rw [hop] at hop'
  cases hop'
  exact ⟨hd, d', hres, hstep⟩

theorem agree_withDecision : Agree (P := P) withDecision resolveDecision := by
  intro w x d y h
  obtain ⟨d₁, hd₁, heq⟩ := Option.map_eq_some_iff.1 h
  cases heq
  have hd := resolveOp_legal hd₁
  exact ⟨hd, d, if_pos (List.contains_iff_mem.2 hd), rfl⟩

theorem withOp_decision (w : World P) (d : Decision) : (withOp w d).map Prod.fst = resolveDecision w d := by
  rw [withOp]
  cases h : resolveDecision w d with
  | none => rfl
  | some d' =>
    obtain ⟨rfl, hd⟩ := resolveDecision_some h
    obtain ⟨op, _, hop, _⟩ := toOp_spec hd
    rw [Option.bind_some, hop]
    rfl

theorem withDecision_decision (w : World P) (op : OpDecision) : (withDecision w op).map Prod.fst = resolveOp w op := by
  rw [withDecision, Option.map_map]
  exact Option.map_id'

variable {scen : Scenario P}

/-- **The oracle's run of a path in step** ends as its replay. -/
theorem runOps_toOps {ri : RunInput}
    (h : InStep scen.invariant withOp resolveOp (startWorld ri.seed ri.buggify scen) ri.path) :
    ∃ ops, toOps scen ri = .ok ops ∧ ending (runOps scen ri.seed ri.buggify ops) = ending (replay scen ri) := by
  obtain ⟨ops, hops, htog⟩ := h.together agree_withOp (good_start _ _ _)
  rw [funext fun w => funext fun d => withOp_decision w d] at htog
  exact ⟨ops, hops, (driveLoop_together htog maxDriveSteps [] [] []).symm⟩

/-- **The path of operations in step** replays as they run. -/
theorem replay_opsToPath {seed : Seed} {bug : AssocMap SiteId Bool} {ops : List OpDecision}
    (h : InStep scen.invariant withDecision resolveDecision (startWorld seed bug scen) ops) :
    ∃ path, opsToPath scen seed bug ops = .ok path ∧
      ending (replay scen ⟨seed, bug, path⟩) = ending (runOps scen seed bug ops) := by
  obtain ⟨path, hpath, htog⟩ := h.together agree_withDecision (good_start _ _ _)
  rw [funext fun w => funext fun op => withDecision_decision w op] at htog
  exact ⟨path, hpath, (driveLoop_together htog maxDriveSteps [] [] []).symm⟩

/-! ## The minimal input -/

/-- The input fails under replay with the reason. -/
def FailsWith (scen : Scenario P) (ri : RunInput) (reason : FailReason) : Prop :=
  ∃ res, replay scen ri = .ok res ∧ res.fail = some reason

theorem failsWith_iff {ri : RunInput} {reason : FailReason} :
    FailsWith scen ri reason ↔ ending (replay scen ri) = .ok (some reason) := by
  unfold FailsWith ending
  cases replay scen ri with
  | error e => simp [Except.map]
  | ok res => simp [Except.map]

theorem oracle_iff {bug : Bug} {sub : List OpDecision} :
    oracle scen bug sub = true ↔ ending (runOps scen bug.input.seed bug.input.buggify sub) = .ok (some bug.reason) := by
  unfold oracle ending
  cases runOps scen bug.input.seed bug.input.buggify sub with
  | error e => simp [Except.map]
  | ok res => simp [Except.map]

/-- The bug's path and the candidates for the minimal input are in step with
    their translations, and no run of a sublist raises an error. -/
structure Replayable (scen : Scenario P) (bug : Bug) : Prop where
  path : InStep scen.invariant withOp resolveOp (startWorld bug.input.seed bug.input.buggify scen) bug.input.path
  runs : ∀ ops, toOps scen bug.input = .ok ops → ∀ sub, sub.Sublist ops →
    ∃ res, runOps scen bug.input.seed bug.input.buggify sub = .ok res
  candidates : ∀ ops, toOps scen bug.input = .ok ops → ∀ sub, sub.Sublist ops → oracle scen bug sub = true →
    (2 ≤ sub.length → OneMinimal (oracle scen bug) sub) →
    InStep scen.invariant withDecision resolveDecision (startWorld bug.input.seed bug.input.buggify scen) sub

/-- **The minimal input fails as the bug does.** -/
theorem minimizeBug_fails {bug : Bug} (hbug : FailsWith scen bug.input bug.reason)
    (h : Replayable scen bug) : ∃ ri, minimizeBug scen bug = .ok ri ∧ FailsWith scen ri bug.reason := by
  obtain ⟨ops, hops, hrun⟩ := runOps_toOps h.path
  have horacle : oracle scen bug ops = true := oracle_iff.2 (hrun.trans (failsWith_iff.1 hbug))
  obtain ⟨sub, hsub, hred⟩ := ddminList_spec (oracle scen bug) ops
  have hholds := hred.holds horacle
  obtain ⟨path, hpath, hreplay⟩ := replay_opsToPath (h.candidates ops hops sub hred.sublist hholds hred.minimal)
  refine ⟨{ bug.input with path := path }, ?_, failsWith_iff.2 (hreplay.trans (oracle_iff.1 hholds))⟩
  rw [minimizeBug, hops]
  simp only [hsub, Option.getD_some, hpath]
  rfl

/-- A node that finds its error at once. -/
def flaw : Scenario counterPlatform where
  nemesis := ⟨0, [], 0⟩
  links := []
  nodes := [(0, .bind (.assertOp .always "flaw" false) fun _ => .pure)]
  invariant := fun _ => true

def flawBug : Bug := ⟨⟨0, [], [.schedNext 0]⟩, .assertViolated "flaw" .always, []⟩

theorem ok_of_toOption {α β : Type} {e : Except VarError α} {f : α → β} {y : β} (h : e.toOption.map f = some y) :
    ∃ r, e = .ok r ∧ f r = y := by
  cases e with
  | error e => cases h
  | ok r => exact ⟨r, rfl, Option.some.inj h⟩

/-- Node 0 must look at the clock late, node 1 waits, and node 3 sends to node 2
    over a slow link. -/
def slow : Scenario counterPlatform where
  nemesis := ⟨0, [], 0⟩
  links := AssocMap.fromList [(toLex (3, 2), ⟨.fixed 20, 0, false, none⟩)]
  nodes :=
    [(0, .bind .getTime fun (t : SimTime) => .bind (.assertOp .always "early" (decide (t < 10))) fun _ => .pure),
     (1, .delay 20 .pure), (2, .recv fun _ => .pure), (3, .bind (.send 2 []) fun _ => .pure)]
  invariant := fun _ => true

/-- The delivery lets the clock go on before node 0 runs. -/
def slowBug : Bug where
  input := ⟨0, [], [.schedNext 3, .schedNext 2, .schedNext 1, .deliverMsg 0, .schedNext 0]⟩
  reason := .assertViolated "early" .always
  moves := []

end Wireform.Sim
