/-
  What holds in every state of the coalescer.

  * `Window.Consistent`: a window by itself: its slots are frozen once it is detached, and
    hold results once its flusher has finished;
  * `Filled`: a window in the state: its size, its place among the open windows, its call;
  * `Fetch.Consistent`: a fetch has joined a window before the window's call of the loader;
  * `Inv.change`: a step changes one window, and at most one fetch.
-/
import Wireform.Lattice.Coalesce.Model

namespace Wireform.Lattice.Coalesce

open AssocMap Transition

variable {θ κ ν ε ℓ : Type}

/-! ## Flushers -/

namespace Flusher

/-- The window may still be open. -/
def Early : Flusher κ ν ε → Prop
  | unforked _ | waiting _ => True
  | _ => False

def keys : Flusher κ ν ε → Option (List κ)
  | read keys _ | calling keys _ | returned keys _ _ | counted keys _ _ _ => some keys
  | _ => none

/-- The loader has been called. -/
def called : Flusher κ ν ε → Bool
  | calling .. | returned .. | counted .. | finished _ => true
  | _ => false

/-- What the call of the loader has ended with. -/
def outcome : Flusher κ ν ε → Option (Outcome κ ν ε)
  | returned _ _ o | counted _ _ o _ | finished o => some o
  | _ => none

/-- What was distributed. -/
def distributed : Flusher κ ν ε → Option (Outcome κ ν ε)
  | finished o => some o
  | _ => none

end Flusher

variable [LinearOrder θ] [LinearOrder κ]

/-! ## Windows -/

def Window.keys (win : Window θ κ ν ε ℓ) : List κ := win.slots.map Prod.fst

/-- **A window by itself.** -/
structure Window.Consistent (win : Window θ κ ν ε ℓ) : Prop where
  ascending : Ascending win.slots
  detached : ¬win.flusher.Early → win.closed = true
  keys : ∀ ks, win.flusher.keys = some ks → ks = win.keys
  results : ∀ k ks, lookup k win.slots = some ks → ks.result = win.flusher.distributed.map (pick · k)
  done : win.done = win.flusher.distributed.isSome

/-- What a window is later. -/
structure Window.Grows (win win' : Window θ κ ν ε ℓ) : Prop where
  ty : win'.ty = win.ty
  loader : win'.loader = win.loader
  keys : ∀ k ∈ win.keys, k ∈ win'.keys
  outcome : ∀ o, win.flusher.outcome = some o → win'.flusher.outcome = some o

/-- **A window in the state.** -/
structure Filled (cfg : Config) (s : State θ κ ν ε ℓ) (w : Nat) (win : Window θ κ ν ε ℓ) : Prop where
  consistent : win.Consistent
  size : (win.slots.length : Int) ≤ max 1 cfg.maxBatch
  isOpen : win.closed = false →
    lookup win.ty s.windows = some w ∧ (win.slots.length : Int) < max 1 cfg.maxBatch
  calls : ∃ t, s.calls.filter (fun c => c.window = w) =
    if win.flusher.called then [⟨w, win.loader, win.keys, t⟩] else []
  creator : ∀ i, win.flusher = .unforked i →
    ∃ f joinedAt, s.fetches[i]? = some f ∧ f.progress = .installed w joinedAt

/-! ## Fetches -/

/-- The fetch has joined the window, before any call for it. -/
structure Joined (s : State θ κ ν ε ℓ) (f : Fetch θ κ ν ε ℓ) (w joinedAt : Nat) (win : Window θ κ ν ε ℓ) : Prop where
  made : s.made[w]? = some win
  ty : win.ty = f.ty
  key : f.key ∈ win.keys
  before : joinedAt < s.clock ∧ ∀ c ∈ s.calls, c.window = w → joinedAt < c.startedAt

def Fetch.Consistent (s : State θ κ ν ε ℓ) (i : Nat) (f : Fetch θ κ ν ε ℓ) : Prop :=
  match f.progress with
  | .start | .creating _ => True
  | .installed w joinedAt => ∃ win, Joined s f w joinedAt win ∧ win.flusher = .unforked i
  | .waiting w joinedAt => ∃ win, Joined s f w joinedAt win
  | .answered w joinedAt r =>
    ∃ win, Joined s f w joinedAt win ∧ ∃ o, win.flusher.outcome = some o ∧ r = pick o f.key

attribute [grind =] Fetch.Consistent

/-- **The invariant.** -/
structure Inv (cfg : Config) (s : State θ κ ν ε ℓ) : Prop where
  fetch : ∀ (i : Nat) (f : Fetch θ κ ν ε ℓ), s.fetches[i]? = some f → f.Consistent s i
  window : ∀ w win, s.made[w]? = some win → Filled cfg s w win
  isOpen : ∀ ty w, lookup ty s.windows = some w → ∃ win, s.made[w]? = some win ∧ win.ty = ty ∧ win.closed = false
  calls : ∀ c ∈ s.calls, c.window < s.made.length

theorem Inv.new (cfg : Config) : Inv cfg (State.new : State θ κ ν ε ℓ) where
  fetch i f h := by cases h
  window w win h := by cases h
  isOpen ty w h := by cases h
  calls c h := absurd h List.not_mem_nil

/-! ## What a step leaves -/

/-- What a state is later. -/
structure Later (s s' : State θ κ ν ε ℓ) : Prop where
  clock : s.clock ≤ s'.clock
  made : ∀ (w : Nat) (win : Window θ κ ν ε ℓ), s.made[w]? = some win → ∃ win', s'.made[w]? = some win' ∧ win.Grows win'
  calls : ∀ c ∈ s'.calls, c ∈ s.calls ∨ s.clock ≤ c.startedAt

omit [LinearOrder θ] [LinearOrder κ] in
theorem Window.Grows.refl (win : Window θ κ ν ε ℓ) : win.Grows win := ⟨rfl, rfl, fun _ h => h, fun _ h => h⟩

variable {s s' : State θ κ ν ε ℓ}

omit [LinearOrder θ] [LinearOrder κ] in
theorem Joined.later (hs : Later s s') {f : Fetch θ κ ν ε ℓ} {w joinedAt : Nat}
    {win : Window θ κ ν ε ℓ} (h : Joined s f w joinedAt win) :
    ∃ win', win.Grows win' ∧ Joined s' f w joinedAt win' := by
  obtain ⟨win', hw', hgrows⟩ := hs.made w win h.made
  refine ⟨win', hgrows, hw', hgrows.ty.trans h.ty, hgrows.keys _ h.key,
    lt_of_lt_of_le h.before.1 hs.clock, fun c hc hcw => ?_⟩
  rcases hs.calls c hc with hold | hnew
  · exact h.before.2 c hold hcw
  · exact lt_of_lt_of_le h.before.1 hnew

omit [LinearOrder θ] in
/-- A fetch that does not move stays consistent; the window that it has to fork is the one
    exception. -/
theorem Fetch.Consistent.later (hs : Later s s') {i : Nat} {f : Fetch θ κ ν ε ℓ}
    (h : f.Consistent s i)
    (hfork : ∀ w joinedAt win', f.progress = .installed w joinedAt → s'.made[w]? = some win' →
      win'.flusher = .unforked i) : f.Consistent s' i := by
  unfold Fetch.Consistent at h ⊢
  cases hp : f.progress with
  | start => trivial
  | creating now => trivial
  | installed w joinedAt =>
    rw [hp] at h
    obtain ⟨win, hj, -⟩ := h
    obtain ⟨win', -, hj'⟩ := hj.later hs
    exact ⟨win', hj', hfork w joinedAt win' hp hj'.made⟩
  | waiting w joinedAt =>
    rw [hp] at h
    obtain ⟨win, hj⟩ := h
    obtain ⟨win', -, hj'⟩ := hj.later hs
    exact ⟨win', hj'⟩
  | answered w joinedAt r =>
    rw [hp] at h
    obtain ⟨win, hj, o, ho, hr⟩ := h
    obtain ⟨win', hgrows, hj'⟩ := hj.later hs
    exact ⟨win', hj', o, hgrows.outcome o ho, hr⟩

/-- A window that a step leaves alone. -/
theorem Filled.later {cfg : Config} {w : Nat} {win : Window θ κ ν ε ℓ}
    (h : Filled cfg s w win) (hopen : lookup win.ty s.windows = some w → lookup win.ty s'.windows = some w)
    (hcalls : s'.calls.filter (fun c => c.window = w) = s.calls.filter (fun c => c.window = w))
    (hcreator : ∀ (i : Nat) (f : Fetch θ κ ν ε ℓ) joinedAt, s.fetches[i]? = some f → f.progress = .installed w joinedAt →
      ∃ f', s'.fetches[i]? = some f' ∧ f'.progress = .installed w joinedAt) : Filled cfg s' w win where
  consistent := h.consistent
  size := h.size
  isOpen hc := ⟨hopen (h.isOpen hc).1, (h.isOpen hc).2⟩
  calls := by
    rw [hcalls]
    exact h.calls
  creator i hi := by
    obtain ⟨f, joinedAt, hf, hp⟩ := h.creator i hi
    obtain ⟨f', hf', hp'⟩ := hcreator i f joinedAt hf hp
    exact ⟨f', joinedAt, hf', hp'⟩

/-- **A step changes one window**, and it may move one fetch. -/
theorem Inv.change {cfg : Config} (h : Inv cfg s) {w : Nat} {win win' : Window θ κ ν ε ℓ}
    (cs : List (LoaderCall κ ℓ)) (hw : s.made[w]? = some win) (hmade : s'.made = s.made.set w win')
    (hclock : s'.clock = s.clock + 1) (hcalls : s'.calls = s.calls ++ cs)
    (hcs : ∀ c ∈ cs, c.window = w ∧ c.startedAt = s.clock) (hgrows : win.Grows win')
    (hothers : ∀ ty v, v ≠ w → (lookup ty s'.windows = some v ↔ lookup ty s.windows = some v))
    (hopen : ∀ ty, lookup ty s'.windows = some w → win'.ty = ty ∧ win'.closed = false)
    (hstay : ∀ (i : Nat) (f : Fetch θ κ ν ε ℓ) v joinedAt, v ≠ w → s.fetches[i]? = some f → f.progress = .installed v joinedAt →
      s'.fetches[i]? = some f)
    (hmoved : ∀ (i : Nat) (f : Fetch θ κ ν ε ℓ), s'.fetches[i]? = some f → Later s s' →
      (s.fetches[i]? = some f ∧ ∀ joinedAt, f.progress = .installed w joinedAt → win'.flusher = .unforked i) ∨
        f.Consistent s' i)
    (hwin : Filled cfg s' w win') : Inv cfg s' := by
  have hlt : w < s.made.length := (List.getElem?_eq_some_iff.1 hw).1
  have hself : s'.made[w]? = some win' := by rw [hmade, List.getElem?_set_self hlt]
  have hother (v : Nat) (hne : v ≠ w) : s'.made[v]? = s.made[v]? := by
    rw [hmade, List.getElem?_set_ne hne.symm]
  have hlater : Later s s' := by
    refine ⟨by omega, fun v win₀ hv => ?_, fun c hc => ?_⟩
    · by_cases hne : v = w
      · subst hne
        rw [hw] at hv
        cases hv
        exact ⟨win', hself, hgrows⟩
      · exact ⟨win₀, (hother v hne).trans hv, Window.Grows.refl win₀⟩
    · rw [hcalls] at hc
      rcases List.mem_append.1 hc with hc | hc
      · exact Or.inl hc
      · exact Or.inr (hcs c hc).2.ge
  refine ⟨fun i f hf => ?_, fun v win₀ hv => ?_, fun ty v hv => ?_, fun c hc => ?_⟩
  · rcases hmoved i f hf hlater with ⟨hold, hfork⟩ | hnew
    · refine (h.fetch i f hold).later hlater fun v joinedAt win₀ hp hv => ?_
      by_cases hne : v = w
      · subst hne
        rw [hself] at hv
        cases hv
        exact hfork joinedAt hp
      · rw [hother v hne] at hv
        have hcons := h.fetch i f hold
        unfold Fetch.Consistent at hcons
        rw [hp] at hcons
        obtain ⟨win₁, hj, hun⟩ := hcons
        rw [hj.made] at hv
        cases hv
        exact hun
    · exact hnew
  · by_cases hne : v = w
    · subst hne
      rw [hself] at hv
      cases hv
      exact hwin
    · rw [hother v hne] at hv
      refine (h.window v win₀ hv).later (fun ho => (hothers _ v hne).2 ho) ?_
        fun i f joinedAt hf hp => ⟨f, hstay i f v joinedAt hne hf hp, hp⟩
      have hnone : cs.filter (fun c => c.window = v) = [] := by
        refine List.filter_eq_nil_iff.2 fun c hc => ?_
        rw [(hcs c hc).1]
        simpa using Ne.symm hne
      rw [hcalls, List.filter_append, hnone, List.append_nil]
  · by_cases hne : v = w
    · subst hne
      exact ⟨win', hself, hopen ty hv⟩
    · obtain ⟨win₀, hm, ht, hc⟩ := h.isOpen ty v ((hothers ty v hne).1 hv)
      exact ⟨win₀, (hother v hne).trans hm, ht, hc⟩
  · rw [hmade, List.length_set]
    rw [hcalls] at hc
    rcases List.mem_append.1 hc with hc | hc
    · exact h.calls c hc
    · rw [(hcs c hc).1]
      exact hlt

/-- **A step moves one fetch**, and changes no window. -/
theorem Inv.moved {cfg : Config} (h : Inv cfg s) (hmade : s'.made = s.made)
    (hwindows : s'.windows = s.windows) (hcalls : s'.calls = s.calls) (hclock : s'.clock = s.clock + 1)
    (hstay : ∀ (i : Nat) (f : Fetch θ κ ν ε ℓ) v joinedAt, s.fetches[i]? = some f → f.progress = .installed v joinedAt →
      s'.fetches[i]? = some f)
    (hmoved : ∀ (i : Nat) (f : Fetch θ κ ν ε ℓ), s'.fetches[i]? = some f → Later s s' → s.fetches[i]? = some f ∨ f.Consistent s' i) :
    Inv cfg s' := by
  have hlater : Later s s' := by
    refine ⟨by omega, fun v win hv => ⟨win, by rw [hmade]; exact hv, Window.Grows.refl win⟩, fun c hc => ?_⟩
    rw [hcalls] at hc
    exact Or.inl hc
  refine ⟨fun i f hf => ?_, fun w win hw => ?_, fun ty w hw => ?_, fun c hc => ?_⟩
  · rcases hmoved i f hf hlater with hold | hnew
    · refine (h.fetch i f hold).later hlater fun w joinedAt win hp hw => ?_
      have hcons := h.fetch i f hold
      unfold Fetch.Consistent at hcons
      rw [hp] at hcons
      obtain ⟨win₁, hj, hun⟩ := hcons
      rw [hmade, hj.made] at hw
      cases hw
      exact hun
    · exact hnew
  · rw [hmade] at hw
    refine (h.window w win hw).later (fun ho => by rw [hwindows]; exact ho) (by rw [hcalls])
      fun i f joinedAt hf hp => ⟨f, hstay i f w joinedAt hf hp, hp⟩
  · rw [hmade]
    rw [hwindows] at hw
    exact h.isOpen ty w hw
  · rw [hmade]
    rw [hcalls] at hc
    exact h.calls c hc

end Wireform.Lattice.Coalesce
