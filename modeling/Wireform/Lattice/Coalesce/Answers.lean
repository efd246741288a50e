/-
  What the coalescer guarantees, whatever the order of its steps.

  * `Coalesced`: an answer is the row of the fetch's own key, from a call of the loader that
    started after the fetch had joined; a window has at most one call, of distinct keys;
  * `answer_final`: an answer stays;
  * `flush_leaves`: a flusher touches no window but its own;
  * `progress_lt`: without new fetches the steps come to an end;
  * `Inv.settled`: and where they have, every fetch is answered.
-/
import Mathlib.Data.Prod.Lex
import Mathlib.Order.WellFounded
import Wireform.Lattice.Coalesce.Steps

namespace Wireform.Lattice.Coalesce

open AssocMap Transition

variable {θ κ ν ε ℓ : Type} [LinearOrder θ] [LinearOrder κ]
variable {cfg : Config} {s s' : State θ κ ν ε ℓ} {w : Nat} {win win' : Window θ κ ν ε ℓ}

/-! ## Calls and answers -/

/-- The call of a window. -/
theorem Inv.call (h : Inv cfg s) {c : LoaderCall κ ℓ} (hc : c ∈ s.calls) :
    ∃ win, s.made[c.window]? = some win ∧ c.keys = win.keys ∧ c.loader = win.loader := by
  obtain ⟨win, hwin⟩ : ∃ win, s.made[c.window]? = some win := ⟨_, List.getElem?_eq_getElem (h.calls c hc)⟩
  obtain ⟨t, ht⟩ := (h.window c.window win hwin).calls
  have hm : c ∈ s.calls.filter (fun c' => c'.window = c.window) := List.mem_filter.2 ⟨hc, by simp⟩
  rw [ht] at hm
  split at hm
  · have heq := List.mem_singleton.1 hm
    exact ⟨win, hwin, congrArg LoaderCall.keys heq, congrArg LoaderCall.loader heq⟩
  · exact absurd hm List.not_mem_nil

omit [LinearOrder κ] in
theorem Flusher.called_of_outcome {fl : Flusher κ ν ε} {o : Outcome κ ν ε} (h : fl.outcome = some o) :
    fl.called = true := by
  cases fl with
  | returned | counted | finished => rfl
  | _ => cases h

theorem Filled.call (h : Filled cfg s w win) (hcalled : win.flusher.called = true) :
    ∃ c ∈ s.calls, c.window = w ∧ c.keys = win.keys ∧ c.loader = win.loader ∧
      s.calls.filter (fun c => c.window = w) = [c] := by
  obtain ⟨t, ht⟩ := h.calls
  rw [if_pos hcalled] at ht
  have hm : (⟨w, win.loader, win.keys, t⟩ : LoaderCall κ ℓ) ∈ s.calls.filter (fun c => c.window = w) := by
    rw [ht]
    exact List.mem_singleton.2 rfl
  exact ⟨_, (List.mem_filter.1 hm).1, rfl, rfl, rfl, ht⟩

theorem pick_eq_error {o : Outcome κ ν ε} {k : κ} {e : ε} : pick o k = .error e ↔ o = .error e := by
  cases o <;> simp [pick]

/-- **The answers and the calls of a state.** -/
structure Coalesced (cfg : Config) (s : State θ κ ν ε ℓ) : Prop where
  answered : ∀ (i : Nat) (f : Fetch θ κ ν ε ℓ) w joinedAt r, s.fetches[i]? = some f →
    f.progress = .answered w joinedAt r →
    ∃ c ∈ s.calls, c.window = w ∧ f.key ∈ c.keys ∧ joinedAt < c.startedAt ∧
      ∃ win o, s.made[w]? = some win ∧ win.ty = f.ty ∧ win.flusher.outcome = some o ∧ r = pick o f.key ∧
        ∀ e, r = .error e ↔ o = .error e
  batch : ∀ c ∈ s.calls, c.keys.Nodup ∧ (c.keys.length : Int) ≤ max 1 cfg.maxBatch ∧
    ∃ win, s.made[c.window]? = some win ∧ c.keys = win.keys ∧ c.loader = win.loader
  once : ∀ w, (s.calls.filter fun c => c.window = w).length ≤ 1

theorem Inv.coalesced (h : Inv cfg s) : Coalesced cfg s where
  answered i f w joinedAt r hf hp := by
    have hfc := h.fetch i f hf
    unfold Fetch.Consistent at hfc
    rw [hp] at hfc
    obtain ⟨win, hj, o, ho, rfl⟩ := hfc
    obtain ⟨c, hc, hcw, hkeys, -, -⟩ := (h.window w win hj.made).call (Flusher.called_of_outcome ho)
    refine ⟨c, hc, hcw, hkeys ▸ hj.key, hj.before.2 c hc hcw, win, o, hj.made, hj.ty, ho, rfl, fun e => ?_⟩
    exact pick_eq_error
  batch c hc := by
    obtain ⟨win, hwin, hkeys, hloader⟩ := h.call hc
    have hfilled := h.window c.window win hwin
    refine ⟨?_, ?_, win, hwin, hkeys, hloader⟩
    · rw [hkeys]
      exact hfilled.consistent.ascending.nodup_keys
    · rw [hkeys, Window.keys, List.length_map]
      exact hfilled.size
  once w := by
    by_cases hlt : w < s.made.length
    · obtain ⟨t, ht⟩ := (h.window w _ (List.getElem?_eq_getElem hlt)).calls
      rw [ht]
      split <;> simp
    · have hnone : s.calls.filter (fun c => c.window = w) = [] := by
        refine List.filter_eq_nil_iff.2 fun c hc => ?_
        have := h.calls c hc
        simpa using fun heq : c.window = w => hlt (heq ▸ this)
      rw [hnone]
      exact Nat.zero_le 1

/-! ## What a step leaves -/

variable {loaded : Option (Outcome κ ν ε)} {f : Fetch θ κ ν ε ℓ} {i : Nat} {now : Nat}

theorem tryJoin_fetches {ty : θ} {key : κ} (hjoin : tryJoin cfg s ty key now = some (w, s')) :
    s'.fetches = s.fetches := by
  unfold tryJoin at hjoin
  obtain ⟨⟨u, win⟩, -, heq⟩ := Option.map_eq_some_iff.1 hjoin
  dsimp only at heq
  split at heq <;> cases heq <;> rfl

/-- What a flusher leaves of the state; the windows are closed by the first step that it
    takes, or by another thread before. -/
theorem runFlush_eq (hstep : runFlush s w win now loaded = some s') :
    s'.fetches = s.fetches ∧ ∃ win', s'.made = s.made.set w win' ∧
      (s'.windows = s.windows ∨ win.flusher = .waiting true ∧ lookup win.ty s.windows = some w ∧
        s'.windows = erase win.ty s.windows) := by
  unfold runFlush at hstep
  cases hfl : win.flusher with
  | unforked creator => simp [hfl] at hstep
  | waiting expired =>
    simp only [hfl] at hstep
    split at hstep
    · cases hstep
      exact ⟨rfl, _, rfl, Or.inl rfl⟩
    · split at hstep
      · rename_i hexp
        cases hstep
        refine ⟨rfl, _, rfl, ?_⟩
        by_cases hl : lookup win.ty s.windows = some w
        · exact Or.inr ⟨by rw [hexp], hl, if_pos hl⟩
        · exact Or.inl (if_neg hl)
      · cases hstep
  | counted keys flushedAt o joins =>
    simp only [hfl] at hstep
    split at hstep
    · cases hstep
    · cases hstep
      exact ⟨rfl, _, rfl, Or.inl rfl⟩
  | calling keys flushedAt =>
    simp only [hfl] at hstep
    obtain ⟨o, -, rfl⟩ := Option.map_eq_some_iff.1 hstep
    exact ⟨rfl, _, rfl, Or.inl rfl⟩
  | detached | read | returned =>
    simp only [hfl] at hstep
    cases hstep
    exact ⟨rfl, _, rfl, Or.inl rfl⟩
  | finished o => simp [hfl] at hstep

/-- The fetches after a step: one of them may have moved, if it was not answered. -/
theorem step_fetches {e : Event θ κ ν ε ℓ} (hstep : step cfg s e = some s')
    (hf : s.fetches[i]? = some f) {joinedAt : Nat} {r : Except ε (Option ν)}
    (hp : f.progress = .answered w joinedAt r) : s'.fetches[i]? = some f := by
  cases e with
  | fetch ty key loader =>
    cases hstep
    exact (List.getElem?_append_left (List.getElem?_eq_some_iff.1 hf).1).trans hf
  | flushNow ty =>
    cases hstep
    change (flushNow s ty).fetches[i]? = some f
    unfold flushNow
    split <;> exact hf
  | enqueue j now =>
    obtain ⟨g, hg, hmap⟩ := Option.bind_eq_some_iff.1 hstep
    obtain ⟨s₁, hs₁, rfl⟩ := Option.map_eq_some_iff.1 hmap
    change s₁.fetches[i]? = some f
    unfold enqueue at hs₁
    cases hgp : g.progress with
    | start =>
      simp only [hgp] at hs₁
      split at hs₁
      · rename_i v s₂ hjoin
        cases hs₁
        change (s₂.fetches.set j _)[i]? = some f
        rw [tryJoin_fetches hjoin]
        exact fetches_stay _ hg hf (by simp [hp, hgp])
      · cases hs₁
        exact fetches_stay _ hg hf (by simp [hp, hgp])
    | creating t =>
      simp only [hgp] at hs₁
      split at hs₁
      · rename_i s₂ hinst
        cases hs₁
        change (s₂.fetches.set j _)[i]? = some f
        rw [(install_eq hinst).2.2.2.1]
        exact fetches_stay _ hg hf (by simp [hp, hgp])
      · cases hs₁
        exact fetches_stay _ hg hf (by simp [hp, hgp])
    | installed v at' =>
      simp only [hgp, Option.map_eq_some_iff] at hs₁
      obtain ⟨win, -, rfl⟩ := hs₁
      exact fetches_stay _ hg hf (by simp [hp, hgp])
    | waiting v at' =>
      simp only [hgp, Option.map_eq_some_iff] at hs₁
      obtain ⟨r', -, rfl⟩ := hs₁
      exact fetches_stay _ hg hf (by simp [hp, hgp])
    | answered v at' r' => simp [hgp] at hs₁
  | expire v =>
    obtain ⟨win, -, hmap⟩ := Option.bind_eq_some_iff.1 hstep
    obtain ⟨s₁, hs₁, rfl⟩ := Option.map_eq_some_iff.1 hmap
    unfold expire at hs₁
    split at hs₁
    · cases hs₁
      exact hf
    · cases hs₁
  | runFlush v now loaded =>
    obtain ⟨win, -, hmap⟩ := Option.bind_eq_some_iff.1 hstep
    obtain ⟨s₁, hs₁, rfl⟩ := Option.map_eq_some_iff.1 hmap
    exact (runFlush_eq hs₁).1 ▸ hf

/-- **An answer stays.** -/
theorem answer_final {es : List (Event θ κ ν ε ℓ)} (hrun : run (step cfg) s es = some s')
    (hf : s.fetches[i]? = some f) {joinedAt : Nat} {r : Except ε (Option ν)}
    (hp : f.progress = .answered w joinedAt r) : s'.fetches[i]? = some f :=
  run_invariant (I := fun t => t.fetches[i]? = some f) (P := fun _ _ => True)
    (fun _ _ _ ht _ he => step_fetches he ht hp) hf (along_of_forall (fun _ _ => trivial) s es) hrun

/-- **A flusher touches no window but its own.** -/
theorem flush_leaves
    (hstep : step cfg s (.runFlush w now loaded) = some s') {v : Nat} (hne : v ≠ w) :
    s'.made[v]? = s.made[v]? ∧ ∀ ty, lookup ty s'.windows = some v ↔ lookup ty s.windows = some v := by
  obtain ⟨win, -, hmap⟩ := Option.bind_eq_some_iff.1 hstep
  obtain ⟨s₁, hs₁, rfl⟩ := Option.map_eq_some_iff.1 hmap
  obtain ⟨-, win', hmade, hwindows⟩ := runFlush_eq hs₁
  constructor
  · change s₁.made[v]? = s.made[v]?
    rw [hmade, List.getElem?_set_ne hne.symm]
  · intro ty
    change lookup ty s₁.windows = some v ↔ _
    rcases hwindows with heq | ⟨-, hself, heq⟩
    · rw [heq]
    · rw [heq, lookup_erase]
      split
      · rename_i hty
        rw [hty, hself]
        simpa using hne.symm
      · exact Iff.rfl

/-! ## The end of the steps -/

/-- The steps of the threads and of the timers, without the calls from outside. -/
def Event.Internal : Event θ κ ν ε ℓ → Prop
  | .fetch .. | .flushNow _ => False
  | _ => True

/-- No step is left. -/
def Quiet (cfg : Config) (s : State θ κ ν ε ℓ) : Prop :=
  ∀ e : Event θ κ ν ε ℓ, e.Internal → step cfg s e = none

/-- Where no step is left, the flusher of every window has finished. -/
theorem Inv.finished (h : Inv cfg s) (hquiet : Quiet cfg s)
    (hw : s.made[w]? = some win) : ∃ o, win.flusher = .finished o := by
  have hfilled := h.window w win hw
  have hc := hfilled.consistent
  have hflush (loaded : Option (Outcome κ ν ε)) : Coalesce.runFlush s w win 0 loaded = none := by
    have hq := hquiet (.runFlush w 0 loaded) trivial
    simpa [Coalesce.step, hw] using hq
  unfold Coalesce.runFlush at hflush
  cases hfl : win.flusher with
  | finished o => exact ⟨o, rfl⟩
  | unforked i =>
    obtain ⟨f, joinedAt, hf, hp⟩ := hfilled.creator i hfl
    have hq := hquiet (.enqueue i 0) trivial
    simp [Coalesce.step, hf, Coalesce.enqueue, hp, hw] at hq
  | waiting expired =>
    cases expired with
    | true =>
      simp only [hfl] at hflush
      have hq := hflush none
      split at hq <;> simp at hq
    | false =>
      have hq := hquiet (.expire w) trivial
      simp [Coalesce.step, hw, Coalesce.expire, hfl] at hq
  | calling keys flushedAt =>
    have hq := hflush (some (.ok []))
    simp [hfl] at hq
  | counted keys flushedAt o joins =>
    have hq := hflush none
    simp only [hfl] at hq
    have hdone : win.done = false := by
      rw [hc.done, hfl]
      rfl
    have hnone : (win.slots.any fun e => e.1 ∈ keys && e.2.result.isSome) = false := by
      refine List.any_eq_false.2 fun e he => ?_
      rw [hc.results e.1 e.2 ((hc.ascending.mem_iff e.1 e.2).1 he), hfl]
      simp [Flusher.distributed]
    simp [hdone, hnone] at hq
  | detached | read | returned =>
    have hq := hflush none
    simp [hfl] at hq

/-- **Where no step is left, every fetch is answered.** -/
theorem Inv.all_answered (h : Inv cfg s) (hquiet : Quiet cfg s)
    (hf : s.fetches[i]? = some f) : ∃ w joinedAt r, f.progress = .answered w joinedAt r := by
  have hq : Coalesce.enqueue cfg s i f 0 = none := by
    have hq := hquiet (.enqueue i 0) trivial
    simpa [Coalesce.step, hf] using hq
  have hfc := h.fetch i f hf
  unfold Fetch.Consistent at hfc
  unfold Coalesce.enqueue at hq
  cases hp : f.progress with
  | answered w joinedAt r => exact ⟨w, joinedAt, r, rfl⟩
  | start =>
    simp only [hp] at hq
    split at hq <;> cases hq
  | creating t =>
    simp only [hp] at hq
    split at hq <;> cases hq
  | installed w joinedAt =>
    rw [hp] at hfc
    obtain ⟨win, hj, -⟩ := hfc
    simp [hp, hj.made] at hq
  | waiting w joinedAt =>
    rw [hp] at hfc
    obtain ⟨win, hj⟩ := hfc
    obtain ⟨o, ho⟩ := h.finished hquiet hj.made
    have hc := (h.window w win hj.made).consistent
    obtain ⟨ks, hks⟩ := (hc.ascending.key_iff f.key).1 hj.key
    have hres := hc.results f.key ks hks
    rw [ho] at hres
    simp [hp, State.result, hj.made, hks, hres, Flusher.distributed] at hq

/-! ### Progress -/

def Flusher.left : Flusher κ ν ε → Nat
  | unforked _ => 8
  | waiting false => 7
  | waiting true => 6
  | detached => 5
  | read .. => 4
  | calling .. => 3
  | returned .. => 2
  | counted .. => 1
  | finished _ => 0

attribute [grind =] Flusher.left

/-- A fetch that finds its window open has one step less to take before it joins, and one that
    is about to make a window one more. -/
def Fetch.left (windows : AssocMap θ Nat) (f : Fetch θ κ ν ε ℓ) : Nat :=
  match f.progress with
  | .start => if (lookup f.ty windows).isSome then 0 else 1
  | .creating _ => if (lookup f.ty windows).isSome then 1 else 0
  | .installed .. => 2
  | .waiting .. => 1
  | .answered .. => 0

def Fetch.unjoined (f : Fetch θ κ ν ε ℓ) : Nat :=
  match f.progress with
  | .start | .creating _ => 1
  | _ => 0

/-- The fetches that have yet to join, the open windows, and the steps left until one of the two
    changes. -/
def State.left (s : State θ κ ν ε ℓ) : ℕ ×ₗ ℕ ×ₗ ℕ :=
  toLex ((s.fetches.map Fetch.unjoined).sum,
    toLex (s.windows.length, (s.fetches.map (Fetch.left s.windows)).sum + (s.made.map fun win => win.flusher.left).sum))

theorem sum_map_set {α : Type} (g : α → Nat) {l : List α} {x : α} (y : α) (h : l[i]? = some x) :
    ((l.set i y).map g).sum + g x = (l.map g).sum + g y := by
  induction l generalizing i with
  | nil => cases h
  | cons a l ih =>
    cases i with
    | zero =>
      cases h
      simp only [List.set_cons_zero, List.map_cons, List.sum_cons]
      omega
    | succ i =>
      have := ih (i := i) h
      simp only [List.set_cons_succ, List.map_cons, List.sum_cons]
      omega

omit [LinearOrder κ] in
/-- A fetch joins: whatever else changes. -/
theorem left_lt_of_joined {f g : Fetch θ κ ν ε ℓ} (hf : s.fetches[i]? = some f)
    (hset : s'.fetches = s.fetches.set i g) (hbefore : f.unjoined = 1) (hafter : g.unjoined = 0) :
    s'.left < s.left := by
  have hsum := sum_map_set Fetch.unjoined g hf
  refine Prod.Lex.toLex_lt_toLex.2 (Or.inl ?_)
  rw [hset]
  omega

omit [LinearOrder κ] in
/-- A window is closed by a thread that is no fetch. -/
theorem left_lt_of_closed (hfetches : s'.fetches = s.fetches) {ty : θ} {w : Nat} (hl : lookup ty s.windows = some w)
    (hwindows : s'.windows = erase ty s.windows) : s'.left < s.left := by
  refine Prod.Lex.toLex_lt_toLex.2 (Or.inr ⟨by rw [hfetches], Prod.Lex.toLex_lt_toLex.2 (Or.inl ?_)⟩)
  change s'.windows.length < s.windows.length
  rw [hwindows]
  unfold erase
  exact List.length_filter_lt_length_iff_exists.2 ⟨(ty, w), mem_of_lookup hl, by simp⟩

omit [LinearOrder κ] in
/-- The open windows are the same, and a thread has come further. -/
theorem left_lt_of_sums (hwindows : s'.windows = s.windows)
    (hunjoined : (s'.fetches.map Fetch.unjoined).sum = (s.fetches.map Fetch.unjoined).sum)
    (hlt : (s'.fetches.map (Fetch.left s.windows)).sum + (s'.made.map fun win => win.flusher.left).sum <
      (s.fetches.map (Fetch.left s.windows)).sum + (s.made.map fun win => win.flusher.left).sum) :
    s'.left < s.left := by
  refine Prod.Lex.toLex_lt_toLex.2 (Or.inr ⟨hunjoined, Prod.Lex.toLex_lt_toLex.2 (Or.inr ⟨by rw [hwindows], ?_⟩)⟩)
  rw [hwindows]
  exact hlt

omit [LinearOrder κ] in
theorem left_lt_of_moved (hwindows : s'.windows = s.windows) {f g : Fetch θ κ ν ε ℓ}
    (hf : s.fetches[i]? = some f) (hset : s'.fetches = s.fetches.set i g) (hmade : s'.made = s.made)
    (hun : g.unjoined = f.unjoined) (hlt : g.left s.windows < f.left s.windows) : s'.left < s.left := by
  have h1 := sum_map_set Fetch.unjoined g hf
  have h2 := sum_map_set (Fetch.left s.windows) g hf
  refine left_lt_of_sums hwindows ?_ ?_
  · rw [hset]
    omega
  · rw [hset, hmade]
    omega

omit [LinearOrder κ] in
theorem left_lt_of_window (hwindows : s'.windows = s.windows) (hfetches : s'.fetches = s.fetches)
    (hw : s.made[w]? = some win) (hmade : s'.made = s.made.set w win') (hlt : win'.flusher.left < win.flusher.left) :
    s'.left < s.left := by
  have h1 := sum_map_set (fun win : Window θ κ ν ε ℓ => win.flusher.left) win' hw
  refine left_lt_of_sums hwindows (by rw [hfetches]) ?_
  rw [hfetches, hmade]
  omega

theorem openWindow_eq_none (h : Inv cfg s) {ty : θ} (hn : s.openWindow ty = none) : lookup ty s.windows = none := by
  cases hl : lookup ty s.windows with
  | none => rfl
  | some w =>
    obtain ⟨win, hm, -⟩ := h.isOpen ty w hl
    simp [State.openWindow, hl, hm] at hn

theorem left_enqueue (h : Inv cfg s) (hf : s.fetches[i]? = some f)
    (hstep : enqueue cfg s i f now = some s') : s'.tick.left < s.left := by
  unfold enqueue at hstep
  cases hp : f.progress with
  | start =>
    simp only [hp] at hstep
    split at hstep
    · rename_i w s₁ hjoin
      cases hstep
      refine left_lt_of_joined hf (congrArg (List.set · i _) (tryJoin_fetches hjoin)) ?_ rfl
      simp [Fetch.unjoined, hp]
    · rename_i hnone
      cases hstep
      have hclosed : lookup f.ty s.windows = none := openWindow_eq_none h (Option.map_eq_none_iff.1 hnone)
      refine left_lt_of_moved rfl hf rfl rfl (by simp [Fetch.unjoined, hp]) ?_
      simp [Fetch.left, hp, hclosed]
  | creating t =>
    simp only [hp] at hstep
    split at hstep
    · rename_i s₁ hinst
      cases hstep
      refine left_lt_of_joined hf (congrArg (List.set · i _) (install_eq hinst).2.2.2.1) ?_ rfl
      simp [Fetch.unjoined, hp]
    · rename_i hnone
      cases hstep
      have hopen : (lookup f.ty s.windows).isSome := by
        unfold install at hnone
        split at hnone
        · rename_i hl
          rw [hl]
          rfl
        · cases hnone
      refine left_lt_of_moved rfl hf rfl rfl (by simp [Fetch.unjoined, hp]) ?_
      simp [Fetch.left, hp, hopen]
  | installed w joinedAt =>
    simp only [hp, Option.map_eq_some_iff] at hstep
    obtain ⟨win, hw, rfl⟩ := hstep
    have hun := h.creator hw hf hp
    have h1 := sum_map_set Fetch.unjoined { f with progress := .waiting w joinedAt } hf
    have h2 := sum_map_set (Fetch.left s.windows) { f with progress := .waiting w joinedAt } hf
    have h3 := sum_map_set (fun win : Window θ κ ν ε ℓ => win.flusher.left)
      { win with flusher := .waiting cfg.solo } hw
    have hrank : ({ win with flusher := .waiting cfg.solo } : Window θ κ ν ε ℓ).flusher.left ≤ 7 := by
      change (Flusher.waiting cfg.solo : Flusher κ ν ε).left ≤ 7
      cases cfg.solo <;> simp [Flusher.left]
    simp only [Fetch.unjoined, hp] at h1
    simp only [Fetch.left, hp] at h2
    have hunforked : win.flusher.left = 8 := by
      rw [hun]
      rfl
    refine left_lt_of_sums rfl h1 ?_
    change ((s.fetches.set i _).map (Fetch.left s.windows)).sum +
      ((s.made.set w _).map fun win : Window θ κ ν ε ℓ => win.flusher.left).sum < _
    omega
  | waiting w joinedAt =>
    simp only [hp, Option.map_eq_some_iff] at hstep
    obtain ⟨r, -, rfl⟩ := hstep
    refine left_lt_of_moved rfl hf rfl rfl (by simp [Fetch.unjoined, hp]) ?_
    simp [Fetch.left, hp]
  | answered w joinedAt r => simp [hp] at hstep

theorem left_runFlush (h : Inv cfg s) (hw : s.made[w]? = some win)
    (hstep : runFlush s w win now loaded = some s') : s'.tick.left < s.left := by
  have hfilled := h.window w win hw
  unfold runFlush at hstep
  cases hfl : win.flusher with
  | unforked creator => simp [hfl] at hstep
  | waiting expired =>
    simp only [hfl] at hstep
    split at hstep
    · cases hstep
      refine left_lt_of_window rfl rfl hw rfl ?_
      rw [hfl]
      cases expired <;> simp [Flusher.left]
    · rename_i hopen
      split at hstep
      · cases hstep
        have hl := (hfilled.isOpen (by simpa using hopen)).1
        exact left_lt_of_closed rfl hl (if_pos hl)
      · cases hstep
  | calling keys flushedAt =>
    simp only [hfl] at hstep
    obtain ⟨o, -, rfl⟩ := Option.map_eq_some_iff.1 hstep
    exact left_lt_of_window rfl rfl hw rfl (by simp [hfl, Flusher.left])
  | counted keys flushedAt o joins =>
    simp only [hfl] at hstep
    split at hstep
    · cases hstep
    · cases hstep
      exact left_lt_of_window rfl rfl hw rfl (by simp [hfl, Flusher.left])
  | detached | read | returned =>
    simp only [hfl] at hstep
    cases hstep
    exact left_lt_of_window rfl rfl hw rfl (by simp [hfl, Flusher.left])
  | finished o => simp [hfl] at hstep

/-- **Every step of a thread or of a timer brings the end nearer.** -/
theorem progress_lt (h : Inv cfg s) {e : Event θ κ ν ε ℓ} (he : e.Internal) (hstep : step cfg s e = some s') :
    s'.left < s.left := by
  cases e with
  | fetch => exact he.elim
  | flushNow => exact he.elim
  | enqueue i now =>
    obtain ⟨f, hf, hmap⟩ := Option.bind_eq_some_iff.1 hstep
    obtain ⟨s₁, hs₁, rfl⟩ := Option.map_eq_some_iff.1 hmap
    exact left_enqueue h hf hs₁
  | expire w =>
    obtain ⟨win, hw, hmap⟩ := Option.bind_eq_some_iff.1 hstep
    obtain ⟨s₁, hs₁, rfl⟩ := Option.map_eq_some_iff.1 hmap
    unfold expire at hs₁
    split at hs₁
    · rename_i hfl
      cases hs₁
      exact left_lt_of_window rfl rfl hw rfl (by simp [hfl, Flusher.left])
    · cases hs₁
  | runFlush w now loaded =>
    obtain ⟨win, hw, hmap⟩ := Option.bind_eq_some_iff.1 hstep
    obtain ⟨s₁, hs₁, rfl⟩ := Option.map_eq_some_iff.1 hmap
    exact left_runFlush h hw hs₁

/-- There is no endless sequence of steps without calls from outside. -/
theorem Inv.acc (h : Inv cfg s) :
    Acc (fun s₂ s₁ : State θ κ ν ε ℓ => ∃ e : Event θ κ ν ε ℓ, e.Internal ∧ Coalesce.step cfg s₁ e = some s₂) s := by
  induction hleft : s.left using WellFoundedLT.induction generalizing s with
  | _ m ih =>
    refine Acc.intro _ fun s' ⟨e, he, hstep⟩ => ?_
    exact ih s'.left (hleft ▸ progress_lt h he hstep) (h.step hstep) rfl

/-! ## The coalescer -/

/-- From here the steps of the threads and timers come to an end; and wherever no step is left,
    every fetch is answered, and every window has had its one call. -/
def Settles (cfg : Config) (s : State θ κ ν ε ℓ) : Prop :=
  Acc (fun s₂ s₁ : State θ κ ν ε ℓ => ∃ e : Event θ κ ν ε ℓ, e.Internal ∧ step cfg s₁ e = some s₂) s ∧
    ∀ es s', run (step cfg) s es = some s' → Quiet cfg s' →
      (∀ (i : Nat) (f : Fetch θ κ ν ε ℓ), s'.fetches[i]? = some f →
        ∃ w joinedAt r, f.progress = .answered w joinedAt r) ∧
      ∀ w < s'.made.length, (s'.calls.filter fun c => c.window = w).length = 1

theorem Inv.settles (h : Inv cfg s) : Settles cfg s := by
  refine ⟨h.acc, fun es s' hrun hquiet => ⟨fun i f hf => (h.run hrun).all_answered hquiet hf, fun w hw => ?_⟩⟩
  have hwin := List.getElem?_eq_getElem hw
  obtain ⟨o, ho⟩ := (h.run hrun).finished hquiet hwin
  obtain ⟨c, -, -, -, -, hc⟩ := ((h.run hrun).window w _ hwin).call (by rw [ho]; rfl)
  rw [hc]
  rfl

/-- Two fetches of one key share a window, which a third one fills. -/
def sharedFetches : List (Event Nat Nat Nat String Unit) :=
  [.fetch 0 5 (), .fetch 0 5 (), .fetch 0 6 (), .enqueue 0 1, .enqueue 0 2, .enqueue 0 3, .enqueue 1 4, .enqueue 2 5,
    .runFlush 0 6 none, .runFlush 0 7 none, .runFlush 0 8 none, .runFlush 0 9 (some (.ok [(5, 50)])),
    .runFlush 0 10 none, .runFlush 0 11 none, .enqueue 1 12]

end Wireform.Lattice.Coalesce
