/-
  Every bug of a search is reproduced by replay.

  * `Drives inv w ms w'`: a driver goes from `w` to `w'` by the moves `ms`; it
    advances the clock only where nothing is legal, and nothing fails on the
    way;
  * `driveLoop_follow`: replay of the decisions of such moves makes the same
    moves, so it gets to the same world with the rest of the path;
  * `Fails inv w ms r`: the last moves before a failure;
  * `search_reproduces`: the search drives so, and replay ends as it did.
-/
import Wireform.Sim.Search
import Wireform.Sim.Frame

namespace Wireform.Sim

variable {P : Platform}

/-! ## Drives -/

/-- The decisions among the moves. -/
def decisions (ms : List Move) : DecisionPath :=
  ms.filterMap fun
    | .decide d => some d
    | .tick => none

attribute [grind =] decisions

@[simp] theorem decisions_nil : decisions [] = [] := rfl

@[simp] theorem decisions_decide (d : Decision) (ms : List Move) : decisions (.decide d :: ms) = d :: decisions ms := rfl

@[simp] theorem decisions_tick (ms : List Move) : decisions (.tick :: ms) = decisions ms := rfl

theorem decisions_append (ms ms' : List Move) : decisions (ms ++ ms') = decisions ms ++ decisions ms' :=
  List.filterMap_append

theorem decisions_map (ds : DecisionPath) : decisions (ds.map .decide) = ds := by
  rw [decisions, List.filterMap_map]
  exact List.filterMap_some

/-- Moves on which nothing fails, the clock advanced only where nothing is
    legal. -/
inductive Drives (inv : World P → Bool) : World P → List Move → World P → Prop
  | nil (w : World P) : Drives inv w [] w
  | decide {w w' : World P} {d : Decision} {r : StepResult P} {ms : List Move} (hinv : inv w = true) (hd : d ∈ runnable w)
      (hstep : step w d = .ok r) (hfail : firstAssertFail r.events = none) (hrest : Drives inv r.world ms w') :
      Drives inv w (.decide d :: ms) w'
  | tick {w w' : World P} {ms : List Move} (hinv : inv w = true) (hnone : runnable w = [])
      (hadv : canAdvanceTime w = true) (hrest : Drives inv (advanceClock w) ms w') : Drives inv w (.tick :: ms) w'

theorem Drives.append {inv : World P → Bool} {w₁ w₂ w₃ : World P} {ms ms' : List Move} (h : Drives inv w₁ ms w₂)
    (h' : Drives inv w₂ ms' w₃) : Drives inv w₁ (ms ++ ms') w₃ := by
  induction h with
  | nil => exact h'
  | decide hinv hd hstep hfail _ ih => exact .decide hinv hd hstep hfail (ih h')
  | tick hinv hnone hadv _ ih => exact .tick hinv hnone hadv (ih h')

/-- The last moves before a failure. -/
inductive Fails (inv : World P → Bool) (w : World P) : List Move → FailReason → Prop
  | invariant (hinv : inv w = false) : Fails inv w [] (.invariantBroken "scenario invariant")
  | deadlock (hinv : inv w = true) (hnone : runnable w = []) (hadv : canAdvanceTime w = false)
      (hdead : deadlocked w = true) : Fails inv w [] .deadlock
  | assertion {d : Decision} {r : StepResult P} {reason : FailReason} (hinv : inv w = true) (hd : d ∈ runnable w)
      (hstep : step w d = .ok r) (hfail : firstAssertFail r.events = some reason) : Fails inv w [.decide d] reason

/-! ## Replay follows -/

theorem resolveDecision_eq {w : World P} {d : Decision} (hd : d ∈ runnable w) : resolveDecision w d = some d :=
  if_pos (List.contains_iff_mem.2 hd)

theorem resolveDecision_none {w : World P} (hnone : runnable w = []) (d : Decision) : resolveDecision w d = none := by
  rw [resolveDecision, hnone]
  rfl

theorem progress_none {w : World P} (hnone : runnable w = []) : progress w = none := by
  rw [progress, hnone]
  rfl

section
variable {ι : Type} {inv : World P → Bool} {res : World P → ι → Option Decision} {fuel : Nat} {w : World P} {x : ι}
  {d : Decision} {xs : List ι} {acc : List SimEvent} {log : List Move} {r : StepResult P}

theorem dropWhile_stale (hx : res w x = some d) : (x :: xs).dropWhile (stale res w) = x :: xs :=
  List.dropWhile_cons_of_neg (by simp [stale, hx])

/-- An entry that resolves is taken. -/
theorem driveLoop_decide (hinv : inv w = true) (hx : res w x = some d) (hstep : step w d = .ok r)
    (hfail : firstAssertFail r.events = none) : driveLoop inv res (fuel + 1) w (x :: xs) acc log =
      driveLoop inv res fuel r.world xs (r.events.reverse ++ acc) (.decide d :: log) := by
  simp only [driveLoop, hinv, Bool.not_true, Bool.false_eq_true, if_false, dropWhile_stale hx, hx, hstep, hfail]

/-- The loop stops at the first assertion that fails. -/
theorem driveLoop_assertion {reason : FailReason} (hinv : inv w = true) (hx : res w x = some d) (hstep : step w d = .ok r)
    (hfail : firstAssertFail r.events = some reason) : driveLoop inv res (fuel + 1) w (x :: xs) acc log =
      .ok ⟨r.world, (r.events.reverse ++ acc).reverse, some reason, (.decide d :: log).reverse⟩ := by
  simp only [driveLoop, hinv, Bool.not_true, Bool.false_eq_true, if_false, dropWhile_stale hx, hx, hstep, hfail]

end

/-- Where nothing is legal the clock is advanced, on the path and after it. -/
theorem driveLoop_tick {inv : World P → Bool} {fuel : Nat} {w : World P} {path : DecisionPath}
    {acc : List SimEvent} {log : List Move} (hinv : inv w = true) (hnone : runnable w = [])
    (hadv : canAdvanceTime w = true) :
    driveLoop inv resolveDecision (fuel + 1) w path acc log =
      driveLoop inv resolveDecision fuel (advanceClock w) path acc (.tick :: log) := by
  have hdrop : path.dropWhile (stale resolveDecision w) = path := by
    have hstale : ∀ d, stale resolveDecision w d = false := fun d => by simp [stale, hadv]
    cases path with
    | nil => rfl
    | cons d path => exact List.dropWhile_cons_of_neg (by simp [hstale])
  simp only [driveLoop, hinv, Bool.not_true, Bool.false_eq_true, if_false, hdrop]
  cases path with
  | nil => simp only [progress_none hnone, hadv, if_true]
  | cons d path => simp only [resolveDecision_none hnone]

/-- **Replay follows a drive**, with the path that is left. -/
theorem driveLoop_follow {inv : World P → Bool} {w w' : World P} {ms : List Move} (h : Drives inv w ms w') (fuel : Nat)
    (path : DecisionPath) (acc : List SimEvent) (log : List Move) :
    ∃ acc', driveLoop inv resolveDecision (fuel + ms.length) w (decisions ms ++ path) acc log =
      driveLoop inv resolveDecision fuel w' path acc' (ms.reverse ++ log) := by
  induction h generalizing acc log with
  | nil w => exact ⟨acc, rfl⟩
  | @decide w w' d r ms hinv hd hstep hfail _ ih =>
    obtain ⟨acc', hacc⟩ := ih (r.events.reverse ++ acc) (.decide d :: log)
    refine ⟨acc', ?_⟩
    rw [List.length_cons, ← Nat.add_assoc, decisions_decide, List.cons_append, driveLoop_decide hinv (resolveDecision_eq hd) hstep hfail,
      List.reverse_cons, List.append_assoc]
    exact hacc
  | @tick w w' ms hinv hnone hadv _ ih =>
    obtain ⟨acc', hacc⟩ := ih acc (.tick :: log)
    refine ⟨acc', ?_⟩
    rw [List.length_cons, ← Nat.add_assoc, decisions_tick, driveLoop_tick hinv hnone hadv, List.reverse_cons,
      List.append_assoc]
    exact hacc

/-- Replay of the last moves fails as they do. -/
theorem driveLoop_fails {inv : World P → Bool} {w : World P} {ms : List Move} {reason : FailReason}
    (h : Fails inv w ms reason) (fuel : Nat) (acc : List SimEvent) (log : List Move) :
    ∃ res, driveLoop inv resolveDecision (fuel + 1) w (decisions ms) acc log = .ok res ∧ res.fail = some reason ∧
      res.moves = log.reverse ++ ms := by
  cases h with
  | invariant hinv =>
    refine ⟨⟨w, acc.reverse, some (.invariantBroken "scenario invariant"), log.reverse⟩, ?_, rfl,
      (List.append_nil _).symm⟩
    simp only [driveLoop, hinv, Bool.not_false, if_true]
  | deadlock hinv hnone hadv hdead =>
    refine ⟨⟨w, acc.reverse, some .deadlock, log.reverse⟩, ?_, rfl, (List.append_nil _).symm⟩
    simp only [driveLoop, hinv, Bool.not_true, Bool.false_eq_true, if_false, decisions_nil, List.dropWhile_nil,
      progress_none hnone, hadv, hdead, if_true]
  | @assertion d r reason hinv hd hstep hfail =>
    refine ⟨⟨r.world, (r.events.reverse ++ acc).reverse, some reason, (.decide d :: log).reverse⟩, ?_, rfl,
      List.reverse_cons⟩
    rw [decisions_decide, decisions_nil, driveLoop_assertion hinv (resolveDecision_eq hd) hstep hfail]

/-! ## The look-ahead drives -/

/-- A draw is below the size of its range. -/
theorem draw_lt (x : UInt64) {k : Nat} : (x % (UInt64.ofNat k + 1)).toNat < k + 1 := by
  rw [UInt64.toNat_mod, UInt64.toNat_add, UInt64.toNat_ofNat']
  have hx := x.toNat_lt
  rcases Nat.eq_zero_or_pos ((k % 2 ^ 64 + (1 : UInt64).toNat) % 2 ^ 64) with h | h
  · rw [h, Nat.mod_zero]
    simp at h
    omega
  · refine (Nat.mod_lt _ h).trans_le ?_
    simp
    omega

theorem uniformR_range {n : Nat} (hn : 0 < n) (g : P.Gen) :
    0 ≤ (uniformR (0, (n : Int) - 1) g).1 ∧ (uniformR (0, (n : Int) - 1) g).1 < n := by
  unfold uniformR
  dsimp only
  split_ifs with hle
  · exact ⟨le_rfl, by omega⟩
  · have hdraw := draw_lt (P.nextWord64 g).1 (k := ((n : Int) - 1 - 0).toNat)
    have hlt : (0 : Int) + ((P.nextWord64 g).1 % (UInt64.ofNat ((n : Int) - 1 - 0).toNat + 1)).toNat < n := by omega
    exact ⟨by omega, hlt⟩

/-- The index of a random pick is in range. -/
theorem pickFault_some {faults : List Decision} (hne : faults ≠ []) (g : P.Gen) :
    ∃ d ∈ faults, (pickFault faults g).1 = some d := by
  obtain ⟨h0, hlt⟩ := uniformR_range (List.length_pos_of_ne_nil hne) g
  have hget := List.getElem?_eq_getElem (l := faults) (i := (uniformR (0, (faults.length : Int) - 1) g).1.toNat) (by omega)
  exact ⟨_, List.mem_of_getElem? hget, hget⟩

/-- The look-ahead has a choice where something is legal, and chooses that. -/
theorem rolloutChoice_spec (w : World P) (g : P.Gen) :
    (runnable w = [] ∧ (rolloutChoice w g).1 = none) ∨ ∃ d ∈ runnable w, (rolloutChoice w g).1 = some d := by
  have hfaults (h : (runnable w).filter Decision.isFault ≠ []) (g' : P.Gen) :
      ∃ d ∈ runnable w, (pickFault ((runnable w).filter Decision.isFault) g').1 = some d := by
    obtain ⟨d, hd, hpick⟩ := pickFault_some h g'
    exact ⟨d, (List.mem_filter.1 hd).1, hpick⟩
  have hsplit : (runnable w).filter (fun d => !d.isFault) = [] → (runnable w).filter Decision.isFault = [] →
      runnable w = [] := by
    intro h h'
    rw [List.filter_eq_nil_iff] at h h'
    refine List.eq_nil_iff_forall_not_mem.2 fun d hd => ?_
    have := h d hd
    have := h' d hd
    simp_all
  unfold rolloutChoice
  dsimp only
  split_ifs with hboth hnon hcoin
  · rw [Bool.and_eq_true, List.isEmpty_iff, List.isEmpty_iff] at hboth
    exact Or.inl ⟨hsplit hboth.1 hboth.2, rfl⟩
  · refine Or.inr (hfaults (fun he => hboth ?_) _)
    rw [hnon, he]
    rfl
  · rw [Bool.and_eq_true, Bool.not_eq_true', List.isEmpty_eq_false_iff] at hcoin
    exact Or.inr (hfaults hcoin.1 _)
  · rw [List.isEmpty_iff] at hnon
    obtain ⟨d, ds, hds⟩ := List.exists_cons_of_ne_nil hnon
    have hmem : d ∈ (runnable w).filter fun d => !d.isFault := by rw [hds]; exact List.mem_cons_self
    exact Or.inr ⟨d, (List.mem_filter.1 hmem).1, by rw [hds]; rfl⟩

theorem rolloutChoice_none {w : World P} {g g' : P.Gen} (h : rolloutChoice w g = (none, g')) : runnable w = [] := by
  rcases rolloutChoice_spec w g with ⟨hnone, _⟩ | ⟨d, _, hd⟩
  · exact hnone
  · rw [h] at hd
    cases hd

theorem rolloutChoice_some {w : World P} {g g' : P.Gen} {d : Decision} (h : rolloutChoice w g = (some d, g')) :
    d ∈ runnable w := by
  rcases rolloutChoice_spec w g with ⟨_, hnone⟩ | ⟨d', hmem, hd⟩
  · rw [h] at hnone
    cases hnone
  · rw [h] at hd
    cases hd
    exact hmem

variable {scen : Scenario P} {seed : Seed} {cfg : SearchConfig}

/-- **The look-ahead is a drive**, and what it reports is how that ends. -/
theorem rollout_drives {n : Nat} : ∀ {accDs : DecisionPath} {accEv : List SimEvent}
    {accMs : List Move} {g : P.Gen} {w : World P} {roll : Rolled},
    rollout.go scen accDs accEv accMs g n w = .ok roll →
    ∃ ms, roll.moves = accMs ++ ms ∧ roll.path = accDs ++ decisions ms ∧
      ∀ reason, roll.fail = some reason → ∃ ms₁ ms₂ w', ms = ms₁ ++ ms₂ ∧ Drives scen.invariant w ms₁ w' ∧
        Fails scen.invariant w' ms₂ reason ∧ ms₁.length < n := by
  induction n with
  | zero =>
    intro accDs accEv accMs g w roll h
    cases h
    exact ⟨[], (List.append_nil _).symm, (List.append_nil _).symm, fun reason hr => by cases hr⟩
  | succ n ih =>
    intro accDs accEv accMs g w roll h
    by_cases hok : scen.invariant w = true
    · simp only [rollout.go, hok, Bool.not_true, Bool.false_eq_true, if_false] at h
      cases hchoice : rolloutChoice w g with
      | mk mchoice g2 =>
        cases mchoice with
        | some d =>
          have hd := rolloutChoice_some hchoice
          rw [hchoice] at h
          cases hstep : step w d with
          | error e =>
            simp only [hstep] at h
            cases h
          | ok r =>
            cases hfail : runFailFromAsserts r.events with
            | some reason =>
              simp only [hstep, hfail] at h
              cases h
              refine ⟨[.decide d], rfl, rfl, fun reason' hr => ?_⟩
              cases hr
              exact ⟨[], [.decide d], w, rfl, .nil w, .assertion hok hd hstep hfail, Nat.succ_pos n⟩
            | none =>
              simp only [hstep, hfail] at h
              obtain ⟨ms, hms, hpath, hends⟩ := ih h
              refine ⟨.decide d :: ms, by rw [hms, List.append_assoc]; rfl, by rw [hpath, List.append_assoc]; rfl,
                fun reason hr => ?_⟩
              obtain ⟨ms₁, ms₂, w', rfl, hdrive, hfails, hlt⟩ := hends reason hr
              exact ⟨.decide d :: ms₁, ms₂, w', rfl, .decide hok hd hstep hfail hdrive, hfails, Nat.succ_lt_succ hlt⟩
        | none =>
          have hnone := rolloutChoice_none hchoice
          rw [hchoice] at h
          by_cases hadv : canAdvanceTime w = true
          · simp only [hadv, if_true] at h
            obtain ⟨ms, hms, hpath, hends⟩ := ih h
            refine ⟨.tick :: ms, by rw [hms, List.append_assoc]; rfl, hpath, fun reason hr => ?_⟩
            obtain ⟨ms₁, ms₂, w', rfl, hdrive, hfails, hlt⟩ := hends reason hr
            exact ⟨.tick :: ms₁, ms₂, w', rfl, .tick hok hnone hadv hdrive, hfails, Nat.succ_lt_succ hlt⟩
          · simp only [hadv] at h
            cases h
            refine ⟨[], (List.append_nil _).symm, (List.append_nil _).symm, fun reason hr => ?_⟩
            dsimp only at hr
            split_ifs at hr with hdead
            cases hr
            exact ⟨[], [], w, rfl, .nil w, .deadlock hok hnone (by simpa using hadv) hdead, Nat.succ_pos n⟩
    · simp only [rollout.go, hok, Bool.not_false, if_true] at h
      cases h
      refine ⟨[], (List.append_nil _).symm, (List.append_nil _).symm, fun reason hr => ?_⟩
      cases hr
      exact ⟨[], [], w, rfl, .nil w, .invariant (by simpa using hok), Nat.succ_pos n⟩

/-! ## The campaign -/

/-- A snapshot that the search reached from the start by the decisions of its
    path, in at most as many expansions as it has made. -/
structure Reached (scen : Scenario P) (seed : Seed) (runs : Int) (snap : Snapshot P) : Prop where
  drives : Drives scen.invariant (initWorld seed scen) (snap.path.map .decide) snap.world
  holds : scen.invariant snap.world = true
  length : (snap.path.length : Int) ≤ runs

/-- Replay of the bug's input ends with its reason, after the moves of the
    search. -/
def Reproduces (scen : Scenario P) (bug : Bug) : Prop :=
  ∃ res, replay scen bug.input = .ok res ∧ res.fail = some bug.reason ∧ res.moves = bug.moves

/-- A drive from the start and a failure after it, within the fuel. -/
theorem reproduces_of_drives {ms₁ ms₂ : List Move} {w : World P} {reason : FailReason}
    (hdrive : Drives scen.invariant (initWorld seed scen) ms₁ w) (hfails : Fails scen.invariant w ms₂ reason)
    (hfuel : ms₁.length < maxDriveSteps) {path : DecisionPath} (hpath : path = decisions (ms₁ ++ ms₂)) {ms : List Move}
    (hms : ms = ms₁ ++ ms₂) : Reproduces scen ⟨⟨seed, [], path⟩, reason, ms⟩ := by
  subst hpath hms
  obtain ⟨k, hk⟩ : ∃ k, maxDriveSteps = k + 1 + ms₁.length := ⟨maxDriveSteps - ms₁.length - 1, by omega⟩
  obtain ⟨acc', hfollow⟩ := driveLoop_follow hdrive (k + 1) (decisions ms₂) [] []
  obtain ⟨res, hres, hfail, hmoves⟩ := driveLoop_fails hfails k acc' (ms₁.reverse ++ [])
  refine ⟨res, ?_, hfail, by rw [hmoves]; simp⟩
  rw [replay, hk, decisions_append]
  exact hfollow.trans hres

/-- What a fork of a reached snapshot gives. -/
theorem evalFork_spec {runs : Int} {snap : Snapshot P}
    {d : Decision} {fr : ForkResult P} (hsnap : Reached scen seed runs snap) (hd : d ∈ runnable snap.world)
    (hfuel : runs + 1 + max 1 cfg.horizon ≤ maxDriveSteps) (h : evalFork scen cfg snap d = .ok fr) :
    (∀ reason, fr.fail = some reason → Reproduces scen ⟨⟨seed, [], fr.failPath⟩, reason, fr.failMoves⟩) ∧
      (fr.fail = none → ∀ cov depth parent, Reached scen seed (runs + 1) ⟨fr.childWorld, fr.childPath, cov, depth, parent⟩) := by
  have hlen := hsnap.length
  have hmap : (snap.path ++ [d]).map Move.decide = snap.path.map .decide ++ [.decide d] := List.map_append
  rw [evalFork] at h
  cases hstep : step snap.world d with
  | error e => rw [hstep] at h; cases h
  | ok r =>
    simp only [hstep] at h
    cases hfail : runFailFromAsserts r.events with
    | some reason =>
      simp only [hfail] at h
      cases h
      refine ⟨fun reason' hr => ?_, fun hr => by cases hr⟩
      cases hr
      exact reproduces_of_drives hsnap.drives (.assertion hsnap.holds hd hstep hfail)
        (by rw [List.length_map]; omega) (by rw [← hmap, decisions_map]) hmap
    | none =>
      simp only [hfail] at h
      have hchild : Drives scen.invariant (initWorld seed scen) ((snap.path ++ [d]).map .decide) r.world := by
        rw [hmap]
        exact hsnap.drives.append (.decide hsnap.holds hd hstep hfail (.nil r.world))
      have hlength : ((snap.path ++ [d]).map Move.decide).length = snap.path.length + 1 := by simp
      by_cases hok : scen.invariant r.world = true
      · simp only [hok, Bool.not_true, Bool.false_eq_true, if_false] at h
        cases hroll : rollout scen (P.mkSMGen (word (pathId (snap.path ++ [d])))) cfg.horizon r.world with
        | error e => simp only [hroll] at h; cases h
        | ok roll =>
          simp only [hroll] at h
          cases h
          obtain ⟨ms, hms, hpath, hends⟩ := rollout_drives hroll
          rw [List.nil_append] at hms hpath
          refine ⟨fun reason hr => ?_, fun _ cov depth parent => ⟨hchild, hok, ?_⟩⟩
          · obtain ⟨ms₁, ms₂, w', heq, hdrive, hfails, hlt⟩ := hends reason hr
            refine reproduces_of_drives (hchild.append hdrive) hfails ?_ ?_ ?_
            · rw [List.length_append, hlength]
              omega
            · simp only [hpath, heq, decisions_append, decisions_map, List.append_assoc]
            · dsimp only
              rw [hms, heq, List.append_assoc]
          · dsimp only
            rw [List.length_append, List.length_singleton]
            omega
      · simp only [hok, Bool.not_false, if_true] at h
        cases h
        refine ⟨fun reason' hr => ?_, fun hr => by cases hr⟩
        cases hr
        exact reproduces_of_drives hchild (.invariant (by simpa using hok)) (by rw [hlength]; omega)
          (by rw [List.append_nil, decisions_map]) (List.append_nil _).symm

theorem Reached.mono {runs runs' : Int} {snap : Snapshot P}
    (h : Reached scen seed runs snap) (hle : runs ≤ runs') : Reached scen seed runs' snap :=
  { h with length := h.length.trans hle }

/-- The frontier is reached and the bugs are reproducible. -/
structure Sound (scen : Scenario P) (seed : Seed) (s : LoopState P) : Prop where
  frontier : ∀ e ∈ s.frontier, Reached scen seed s.runs e.2.2
  bugs : ∀ b ∈ s.bugs, Reproduces scen b

theorem integrate_runs (seed : Seed) (cfg : SearchConfig) (pid : Int) (s : LoopState P) (fr : ForkResult P) :
    (integrate seed cfg pid s fr).runs = s.runs := by
  unfold integrate
  dsimp only
  cases fr.fail with
  | some reason =>
    dsimp only
    split_ifs <;> rfl
  | none =>
    dsimp only
    split_ifs <;> rfl

theorem integrate_sound {pid : Int} {s : LoopState P}
    {fr : ForkResult P} (hs : Sound scen seed s)
    (hbug : ∀ reason, fr.fail = some reason → Reproduces scen ⟨⟨seed, [], fr.failPath⟩, reason, fr.failMoves⟩)
    (hchild : fr.fail = none → ∀ cov depth parent, Reached scen seed s.runs ⟨fr.childWorld, fr.childPath, cov, depth, parent⟩) :
    Sound scen seed (integrate seed cfg pid s fr) := by
  unfold integrate
  dsimp only
  cases hfail : fr.fail with
  | some reason =>
    dsimp only
    split_ifs
    · exact ⟨hs.frontier, hs.bugs⟩
    · refine ⟨hs.frontier, fun b hb => ?_⟩
      rcases List.mem_cons.1 hb with rfl | hb
      · exact hbug reason hfail
      · exact hs.bugs b hb
  | none =>
    dsimp only
    have hfrontier {k : FrontierKey} {i parent : Int} : ∀ e ∈ s.frontier.orderedInsert (fun e e' => e.1.before e'.1)
        (k, i, (⟨fr.childWorld, fr.childPath, fr.childCov, fr.depth, some parent⟩ : Snapshot P)),
        Reached scen seed s.runs e.2.2 := by
      intro e he
      rcases (List.mem_orderedInsert _).1 he with rfl | he
      · exact hchild hfail _ _ _
      · exact hs.frontier e he
    split_ifs
    · exact ⟨hs.frontier, hs.bugs⟩
    · exact ⟨hfrontier, hs.bugs⟩
    · exact ⟨hfrontier, hs.bugs⟩

/-- The results of the forks go in one after the other. -/
theorem foldl_sound (cfg : SearchConfig) (pid : Int) (frs : List (ForkResult P))
    {s : LoopState P} (hs : Sound scen seed s)
    (hfrs : ∀ fr ∈ frs, (∀ reason, fr.fail = some reason → Reproduces scen ⟨⟨seed, [], fr.failPath⟩, reason, fr.failMoves⟩) ∧
      (fr.fail = none → ∀ cov depth parent, Reached scen seed s.runs ⟨fr.childWorld, fr.childPath, cov, depth, parent⟩)) :
    Sound scen seed (frs.foldl (integrate seed cfg pid) s) ∧ (frs.foldl (integrate seed cfg pid) s).runs = s.runs := by
  induction frs generalizing s with
  | nil => exact ⟨hs, rfl⟩
  | cons fr frs ih =>
    obtain ⟨hbug, hchild⟩ := hfrs fr List.mem_cons_self
    have hruns := integrate_runs seed cfg pid s fr
    rw [List.foldl_cons, ← hruns]
    exact ih (integrate_sound hs hbug hchild) (by rw [hruns]; exact fun fr' h => hfrs fr' (List.mem_cons_of_mem _ h))

theorem mem_interleave {α : Type} {x : α} : ∀ {n : Nat} {xss : List (List α)}, x ∈ interleave.go n xss → ∃ xs ∈ xss, x ∈ xs
  | 0, _, h => by cases h
  | n + 1, xss, h => by
    have hmem {p : α × List α} (hp : p ∈ xss.filterMap fun xs => xs.head?.map fun x => (x, xs.tail)) :
        p.1 :: p.2 ∈ xss := by
      obtain ⟨xs, hxs, heq⟩ := List.mem_filterMap.1 hp
      cases xs with
      | nil => cases heq
      | cons y ys => cases heq; exact hxs
    rw [interleave.go] at h
    split at h
    · cases h
    · rcases List.mem_append.1 h with h | h
      · obtain ⟨p, hp, rfl⟩ := List.mem_map.1 h
        exact ⟨_, hmem hp, List.mem_cons_self⟩
      · obtain ⟨xs, hxs, hx⟩ := mem_interleave h
        obtain ⟨p, hp, rfl⟩ := List.mem_map.1 hxs
        exact ⟨_, hmem hp, List.mem_cons_of_mem _ hx⟩

/-- Only legal decisions are chosen. -/
theorem mem_of_chooseDecisions {bandit : Bandit} {t : Int} {w : World P} {rs : List Decision}
    {d : Decision} (h : d ∈ chooseDecisions cfg bandit t w rs) : d ∈ rs := by
  obtain ⟨xs, hxs, hd⟩ := mem_interleave (List.mem_of_mem_take h)
  rcases List.mem_cons.1 hxs with rfl | hxs
  · exact (List.mem_filter.1 hd).1
  rcases List.mem_cons.1 hxs with rfl | hxs
  · exact (List.mem_filter.1 (List.mem_filter.1 hd).1).1
  · rw [List.mem_singleton.1 hxs, List.mem_insertionSort] at hd
    exact (List.mem_filter.1 (List.mem_filter.1 hd).1).1

/-- What a traversal returns came from an element. -/
theorem mem_of_mapM {α β ε : Type} {f : α → Except ε β} : ∀ {xs : List α} {ys : List β}, xs.mapM f = .ok ys →
    ∀ y ∈ ys, ∃ x ∈ xs, f x = .ok y := by
  intro xs
  induction xs with
  | nil =>
    intro ys h y hy
    cases h
    cases hy
  | cons x xs ih =>
    intro ys h y hy
    rw [List.mapM_cons] at h
    cases hx : f x with
    | error e => rw [hx] at h; cases h
    | ok z =>
      cases hxs : xs.mapM f with
      | error e => rw [hx, hxs] at h; cases h
      | ok zs =>
        rw [hx, hxs] at h
        cases h
        rcases List.mem_cons.1 hy with rfl | hy
        · exact ⟨x, List.mem_cons_self, hx⟩
        · obtain ⟨x', hx', hfx⟩ := ih hxs y hy
          exact ⟨x', List.mem_cons_of_mem _ hx', hfx⟩

/-- **The campaign stays sound.** -/
theorem loop_sound {n : Nat} : ∀ {s s' : LoopState P},
    Sound scen seed s → s.runs + n + max 1 cfg.horizon ≤ maxDriveSteps → search.loop cfg seed scen n s = .ok s' →
    Sound scen seed s' := by
  induction n with
  | zero =>
    intro s s' hs _ h
    cases h
    exact hs
  | succ n ih =>
    intro s s' hs hfuel h
    cases hf : s.frontier with
    | nil =>
      simp only [search.loop, hf] at h
      cases h
      exact hs
    | cons e frontier' =>
      obtain ⟨k, pid, snap⟩ := e
      simp only [search.loop, hf] at h
      cases hres : (chooseDecisions cfg s.bandit (s.runs + 1) snap.world (runnable snap.world)).mapM (evalFork scen cfg snap) with
      | error e => simp only [hres] at h; cases h
      | ok results =>
        simp only [hres] at h
        have hsnap : Reached scen seed s.runs snap := hs.frontier (k, pid, snap) (by rw [hf]; exact List.mem_cons_self)
        have hpopped : Sound scen seed { s with frontier := frontier', runs := s.runs + 1 } :=
          ⟨fun e he => (hs.frontier e (by rw [hf]; exact List.mem_cons_of_mem _ he)).mono (Int.le.intro 1 rfl), hs.bugs⟩
        obtain ⟨hnew, hruns⟩ := foldl_sound cfg pid results hpopped fun fr hfr => by
          obtain ⟨d, hd, hfork⟩ := mem_of_mapM hres fr hfr
          exact evalFork_spec hsnap (mem_of_chooseDecisions hd) (by omega) hfork
        exact ih hnew (by rw [hruns]; push_cast at hfuel ⊢; omega) h

/-- A program that sleeps and then fails an assertion. -/
def sleeper : Scenario counterPlatform where
  nemesis := ⟨0, [], 0⟩
  links := []
  nodes := [(0, .delay 5 (.bind (.assertOp .always "awake" false) fun _ => .pure))]
  invariant := fun _ => true

end Wireform.Sim
