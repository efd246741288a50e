/-
  Every step of the coalescer keeps the invariant.

  * `Inv.window_step`: a step of a flusher, of the timer or of `flushNow`;
  * `Inv.join`, `Inv.install`, `Inv.fork`, `Inv.answer`: the steps of a fetch;
  * `Inv.step`, `Inv.run`.
-/
import Wireform.Lattice.Coalesce.Invariant

namespace Wireform.Lattice.Coalesce

open AssocMap Transition

variable {θ κ ν ε ℓ : Type} [LinearOrder θ] [LinearOrder κ]
variable {cfg : Config} {s s' : State θ κ ν ε ℓ} {w : Nat} {win win' : Window θ κ ν ε ℓ}

/-! ## Windows -/

theorem Inv.window_of_open (h : Inv cfg s) {ty : θ} (hopen : s.openWindow ty = some (w, win)) :
    lookup ty s.windows = some w ∧ s.made[w]? = some win ∧ win.ty = ty ∧ win.closed = false := by
  unfold State.openWindow at hopen
  rw [Option.bind_eq_some_iff] at hopen
  obtain ⟨v, hv, hmap⟩ := hopen
  rw [Option.map_eq_some_iff] at hmap
  obtain ⟨win₀, hwin, heq⟩ := hmap
  cases heq
  obtain ⟨win₁, hmade, hty, hclosed⟩ := h.isOpen ty _ hv
  rw [hwin] at hmade
  cases hmade
  exact ⟨hv, hwin, hty, hclosed⟩

/-- The open windows after a step that may close `w`. -/
def Closes (s s' : State θ κ ν ε ℓ) (w : Nat) (win win' : Window θ κ ν ε ℓ) : Prop :=
  s'.windows = s.windows ∧ win'.closed = win.closed ∨
    lookup win.ty s.windows = some w ∧ s'.windows = erase win.ty s.windows ∧ win'.closed = true

omit [LinearOrder κ] in
theorem Closes.others (hc : Closes s s' w win win') (ty : θ) (v : Nat) (hne : v ≠ w) :
    lookup ty s'.windows = some v ↔ lookup ty s.windows = some v := by
  rcases hc with ⟨heq, -⟩ | ⟨hself, heq, -⟩
  · rw [heq]
  · rw [heq, lookup_erase]
    split
    · rename_i hty
      rw [hty, hself]
      simpa using Ne.symm hne
    · exact Iff.rfl

theorem Closes.open_self (hc : Closes s s' w win win') (h : Inv cfg s) (hw : s.made[w]? = some win)
    (hty : win'.ty = win.ty) (ty : θ) (hl : lookup ty s'.windows = some w) : win'.ty = ty ∧ win'.closed = false := by
  have hold : lookup ty s.windows = some w → win.ty = ty ∧ win.closed = false := fun hl' => by
    obtain ⟨win₀, hmade, hty₀, hcl⟩ := h.isOpen ty w hl'
    rw [hw] at hmade
    cases hmade
    exact ⟨hty₀, hcl⟩
  rcases hc with ⟨heq, hclosed⟩ | ⟨-, heq, -⟩
  · rw [heq] at hl
    exact ⟨hty.trans (hold hl).1, hclosed.trans (hold hl).2⟩
  · rw [heq, lookup_erase] at hl
    split at hl
    · cases hl
    · rename_i hne
      exact (hne (hold hl).1.symm).elim

/-- **A step of a flusher, of the timer or of `flushNow`**: it moves no fetch, and the keys of
    the window stay. -/
theorem Inv.window_step (h : Inv cfg s) (hw : s.made[w]? = some win) (cs : List (LoaderCall κ ℓ))
    (hmade : s'.made = s.made.set w win') (hfetches : s'.fetches = s.fetches) (hclock : s'.clock = s.clock + 1)
    (hcalls : s'.calls = s.calls ++ cs) (hcs : ∀ c ∈ cs, c.window = w ∧ c.startedAt = s.clock)
    (hwindows : Closes s s' w win win')
    (hsame : win'.ty = win.ty ∧ win'.loader = win.loader ∧ win'.keys = win.keys)
    (hout : ∀ o, win.flusher.outcome = some o → win'.flusher.outcome = some o)
    (hun : ∀ i, win'.flusher = .unforked i ↔ win.flusher = .unforked i) (hcons : win'.Consistent)
    (hcall : ∃ t, s'.calls.filter (fun c => c.window = w) =
      if win'.flusher.called then [⟨w, win.loader, win.keys, t⟩] else []) : Inv cfg s' := by
  obtain ⟨hty, hloader, hkeys⟩ := hsame
  have hfilled := h.window w win hw
  have hlength : win'.slots.length = win.slots.length := by
    have hl := congrArg List.length hkeys
    unfold Window.keys at hl
    rwa [List.length_map, List.length_map] at hl
  refine h.change cs hw hmade hclock hcalls hcs ⟨hty, hloader, fun k hk => hkeys ▸ hk, hout⟩ hwindows.others
    (hwindows.open_self h hw hty) (fun i f v joinedAt _ hf _ => by rw [hfetches]; exact hf) (fun i f hf _ => ?_) ?_
  · rw [hfetches] at hf
    refine Or.inl ⟨hf, fun joinedAt hp => (hun i).2 ?_⟩
    have hfc := h.fetch i f hf
    unfold Fetch.Consistent at hfc
    rw [hp] at hfc
    obtain ⟨win₀, hj, hun₀⟩ := hfc
    rw [hj.made] at hw
    cases hw
    exact hun₀
  · refine ⟨hcons, by rw [hlength]; exact hfilled.size, fun hc => ?_, ?_, fun i hi => ?_⟩
    · rcases hwindows with ⟨heq, hclosed⟩ | ⟨-, -, hclosed⟩
      · rw [hlength, hty, heq]
        exact hfilled.isOpen (hclosed ▸ hc)
      · rw [hclosed] at hc
        cases hc
    · rw [hloader, hkeys]
      exact hcall
    · obtain ⟨f, joinedAt, hf, hp⟩ := hfilled.creator i ((hun i).1 hi)
      exact ⟨f, joinedAt, by rw [hfetches]; exact hf, hp⟩

theorem Inv.expire (h : Inv cfg s) (hw : s.made[w]? = some win) (hstep : expire s w win = some s') :
    Inv cfg s'.tick := by
  unfold Coalesce.expire at hstep
  split at hstep
  · rename_i hfl
    cases hstep
    have hfilled := h.window w win hw
    have hc := hfilled.consistent
    refine h.window_step hw [] rfl rfl rfl (List.append_nil _).symm (by simp) (Or.inl ⟨rfl, rfl⟩)
      ⟨rfl, rfl, rfl⟩ (by simp [hfl, Flusher.outcome]) (by simp [hfl]) ?_ ?_
    · refine ⟨hc.ascending, fun he => (he trivial).elim, fun ks hk => (by cases hk), fun k ks hk => ?_, ?_⟩
      · have hr := hc.results k ks hk
        rwa [hfl] at hr
      · have hd := hc.done
        rwa [hfl] at hd
    · obtain ⟨t, ht⟩ := hfilled.calls
      rw [hfl] at ht
      exact ⟨t, ht⟩
  · cases hstep

theorem Inv.flushNow (h : Inv cfg s) (ty : θ) : Inv cfg (flushNow s ty).tick := by
  unfold Coalesce.flushNow
  split
  · exact h.moved rfl rfl rfl rfl (fun _ _ _ _ hf _ => hf) fun _ _ hf _ => Or.inl hf
  · rename_i w win hopen
    obtain ⟨hl, hw, rfl, hcl⟩ := h.window_of_open hopen
    have hfilled := h.window w win hw
    have hc := hfilled.consistent
    exact h.window_step hw [] rfl rfl rfl (List.append_nil _).symm (by simp) (Or.inr ⟨hl, rfl, rfl⟩)
      ⟨rfl, rfl, rfl⟩ (fun _ ho => ho) (fun _ => Iff.rfl)
      ⟨hc.ascending, fun _ => rfl, hc.keys, hc.results, hc.done⟩ hfilled.calls

/-! ## The flusher -/

/-- The slots after the distribution. -/
theorem lookup_distribute (keys : List κ) (outcome : Outcome κ ν ε) (slots : AssocMap κ (KeySlot ν ε)) (k : κ) :
    lookup k (distribute keys outcome slots) =
      (lookup k slots).map fun ks => if k ∈ keys then { ks with result := some (pick outcome k) } else ks := by
  induction slots with
  | nil => rfl
  | cons e slots ih =>
    obtain ⟨k', ks⟩ := e
    unfold distribute at ih ⊢
    rw [List.map_cons]
    by_cases hk : k = k'
    · subst hk
      by_cases hm : k ∈ keys <;> simp [lookup, hm]
    · simpa [lookup, hk, apply_ite] using ih

theorem keys_distribute (keys : List κ) (outcome : Outcome κ ν ε) (slots : AssocMap κ (KeySlot ν ε)) :
    (distribute keys outcome slots).map Prod.fst = slots.map Prod.fst := by
  unfold distribute
  rw [List.map_map]
  refine List.map_congr_left fun e _ => ?_
  by_cases hm : e.1 ∈ keys <;> simp [hm]

theorem ascending_iff_keys {β : Type} {m : AssocMap κ β} : Ascending m ↔ (m.map Prod.fst).Pairwise (· < ·) :=
  List.pairwise_map.symm

omit [LinearOrder θ] in
/-- The flusher moves on, and changes nothing else in the window. -/
theorem Window.Consistent.moves (hc : win.Consistent) {fl : Flusher κ ν ε} (hclosed : win.closed = true)
    (hkeys : ∀ ks, fl.keys = some ks → ks = win.keys) (hnew : fl.distributed = none)
    (hold : win.flusher.distributed = none) : ({ win with flusher := fl } : Window θ κ ν ε ℓ).Consistent := by
  refine ⟨hc.ascending, fun _ => hclosed, hkeys, fun k ks hk => ?_, ?_⟩
  · have hr := hc.results k ks hk
    rw [hold] at hr
    rw [hnew]
    exact hr
  · have hd := hc.done
    rw [hold] at hd
    rw [hnew]
    exact hd

omit [LinearOrder θ] in
theorem Window.Consistent.distributes (hc : win.Consistent) {keys : List κ} (hkeys : keys = win.keys)
    (hclosed : win.closed = true) (o : Outcome κ ν ε) :
    ({ win with slots := distribute keys o win.slots, done := true, flusher := .finished o } :
      Window θ κ ν ε ℓ).Consistent := by
  refine ⟨?_, fun _ => hclosed, fun ks hk => (by cases hk), fun k ks hk => ?_, rfl⟩
  · rw [ascending_iff_keys]
    change ((distribute keys o win.slots).map Prod.fst).Pairwise _
    rw [keys_distribute]
    exact ascending_iff_keys.1 hc.ascending
  · change lookup k (distribute keys o win.slots) = some ks at hk
    rw [lookup_distribute, Option.map_eq_some_iff] at hk
    obtain ⟨ks₀, hks₀, rfl⟩ := hk
    have hm : k ∈ keys := by
      rw [hkeys]
      exact List.mem_map_of_mem (mem_of_lookup hks₀)
    rw [if_pos hm]
    rfl

theorem Inv.runFlush (h : Inv cfg s) (hw : s.made[w]? = some win) {now : Nat} {loaded : Option (Outcome κ ν ε)}
    (hstep : runFlush s w win now loaded = some s') : Inv cfg s'.tick := by
  have hfilled := h.window w win hw
  have hc := hfilled.consistent
  obtain ⟨t, ht⟩ := hfilled.calls
  unfold Coalesce.runFlush at hstep
  cases hfl : win.flusher with
  | unforked creator => simp [hfl] at hstep
  | waiting expired =>
    rw [hfl] at ht
    simp only [hfl] at hstep
    split at hstep
    · rename_i hclosed
      cases hstep
      exact h.window_step hw [] rfl rfl rfl (List.append_nil _).symm (by simp) (Or.inl ⟨rfl, rfl⟩)
        ⟨rfl, rfl, rfl⟩ (by simp [hfl, Flusher.outcome]) (by simp [hfl])
        (hc.moves hclosed (fun _ hk => by cases hk) rfl (by rw [hfl]; rfl)) ⟨t, ht⟩
    · split at hstep
      · rename_i hopen _
        rw [Bool.not_eq_true] at hopen
        cases hstep
        refine h.window_step hw [] rfl rfl rfl (List.append_nil _).symm (by simp) ?_
          ⟨rfl, rfl, rfl⟩ (by simp [hfl, Flusher.outcome]) (by simp [hfl]) ?_ ⟨t, ht⟩
        · have hl := (hfilled.isOpen hopen).1
          exact Or.inr ⟨hl, if_pos hl, rfl⟩
        · refine ⟨hc.ascending, fun _ => rfl, fun ks hk => (by cases hk), fun k ks hk => ?_, ?_⟩
          · have hr := hc.results k ks hk
            rwa [hfl] at hr
          · have hd := hc.done
            rwa [hfl] at hd
      · cases hstep
  | detached =>
    rw [hfl] at ht
    have hclosed := hc.detached (by rw [hfl]; exact not_false)
    simp only [hfl] at hstep
    cases hstep
    exact h.window_step hw [] rfl rfl rfl (List.append_nil _).symm (by simp) (Or.inl ⟨rfl, rfl⟩)
      ⟨rfl, rfl, rfl⟩ (by simp [hfl, Flusher.outcome]) (by simp [hfl])
      (hc.moves hclosed (fun _ hk => (Option.some.inj hk).symm) rfl (by rw [hfl]; rfl)) ⟨t, ht⟩
  | read keys flushedAt =>
    have hkeys := hc.keys keys (by rw [hfl]; rfl)
    have hclosed := hc.detached (by rw [hfl]; exact not_false)
    rw [hfl] at ht
    simp only [hfl] at hstep
    cases hstep
    refine h.window_step hw [(⟨w, win.loader, keys, s.clock⟩ : LoaderCall κ ℓ)] rfl rfl rfl rfl ?_ (Or.inl ⟨rfl, rfl⟩)
      ⟨rfl, rfl, rfl⟩ (by simp [hfl, Flusher.outcome]) (by simp [hfl])
      (hc.moves hclosed (fun ks hk => ?_) rfl (by rw [hfl]; rfl)) ⟨s.clock, ?_⟩
    · intro c hcm
      rw [List.mem_singleton.1 hcm]
      exact ⟨rfl, rfl⟩
    · rw [← Option.some.inj hk]
      exact hkeys
    · change (s.calls ++ [(⟨w, win.loader, keys, s.clock⟩ : LoaderCall κ ℓ)]).filter _ = _
      rw [List.filter_append, ht, hkeys]
      simp [Flusher.called]
  | calling keys flushedAt =>
    have hkeys := hc.keys keys (by rw [hfl]; rfl)
    have hclosed := hc.detached (by rw [hfl]; exact not_false)
    rw [hfl] at ht
    simp only [hfl] at hstep
    obtain ⟨o, -, rfl⟩ := Option.map_eq_some_iff.1 hstep
    refine h.window_step hw [] rfl rfl rfl (List.append_nil _).symm (by simp) (Or.inl ⟨rfl, rfl⟩)
      ⟨rfl, rfl, rfl⟩ (by simp [hfl, Flusher.outcome]) (by simp [hfl])
      (hc.moves hclosed (fun ks hk => ?_) rfl (by rw [hfl]; rfl)) ⟨t, ht⟩
    rw [← Option.some.inj hk]
    exact hkeys
  | returned keys flushedAt o =>
    have hkeys := hc.keys keys (by rw [hfl]; rfl)
    have hclosed := hc.detached (by rw [hfl]; exact not_false)
    rw [hfl] at ht
    simp only [hfl] at hstep
    cases hstep
    refine h.window_step hw [] rfl rfl rfl (List.append_nil _).symm (by simp) (Or.inl ⟨rfl, rfl⟩)
      ⟨rfl, rfl, rfl⟩ (by simp [hfl, Flusher.outcome]) (by simp [hfl])
      (hc.moves hclosed (fun ks hk => ?_) rfl (by rw [hfl]; rfl)) ⟨t, ht⟩
    rw [← Option.some.inj hk]
    exact hkeys
  | counted keys flushedAt o joins =>
    have hkeys := hc.keys keys (by rw [hfl]; rfl)
    have hclosed := hc.detached (by rw [hfl]; exact not_false)
    rw [hfl] at ht
    simp only [hfl] at hstep
    split at hstep
    · cases hstep
    · cases hstep
      exact h.window_step hw [] rfl rfl rfl (List.append_nil _).symm (by simp) (Or.inl ⟨rfl, rfl⟩)
        ⟨rfl, rfl, keys_distribute keys o win.slots⟩ (by simp [hfl, Flusher.outcome]) (by simp [hfl])
        (hc.distributes hkeys hclosed o) ⟨t, ht⟩
  | finished o => simp [hfl] at hstep

/-! ## Fetches -/

theorem lookup_joinSlots (key k : κ) (now : Nat) (slots : AssocMap κ (KeySlot ν ε)) :
    lookup k (joinSlots key now slots) =
      if k = key then
        some ⟨(lookup key slots).bind KeySlot.result, now :: ((lookup key slots).map KeySlot.joins).getD []⟩
      else lookup k slots := by
  unfold joinSlots
  cases hl : lookup key slots <;> simp

theorem ascending_joinSlots {slots : AssocMap κ (KeySlot ν ε)} (h : Ascending slots) (key : κ) (now : Nat) :
    Ascending (joinSlots key now slots) := by
  unfold joinSlots
  split <;> exact h.insert _ _

theorem length_joinSlots {slots : AssocMap κ (KeySlot ν ε)} (h : Ascending slots) (key : κ) (now : Nat) :
    (joinSlots key now slots).length = if (lookup key slots).isNone then slots.length + 1 else slots.length := by
  unfold joinSlots
  cases hl : lookup key slots <;> simp [h.length_insert, hl]

theorem mem_keys_joinSlots {slots : AssocMap κ (KeySlot ν ε)} (h : Ascending slots) (key k : κ) (now : Nat) :
    k ∈ (joinSlots key now slots).map Prod.fst ↔ k = key ∨ k ∈ slots.map Prod.fst := by
  rw [(ascending_joinSlots h key now).key_iff, h.key_iff, lookup_joinSlots]
  by_cases hk : k = key <;> simp [hk]

omit [LinearOrder θ] in
/-- A window that is open has no results yet. -/
theorem Window.Consistent.not_distributed (hc : win.Consistent) (hopen : win.closed = false) :
    win.flusher.Early ∧ win.flusher.distributed = none ∧ win.flusher.called = false ∧ win.flusher.keys = none := by
  have hearly : win.flusher.Early := by
    by_contra hn
    rw [hc.detached hn] at hopen
    cases hopen
  refine ⟨hearly, ?_⟩
  cases hfl : win.flusher with
  | unforked i => exact ⟨rfl, rfl, rfl⟩
  | waiting e => exact ⟨rfl, rfl, rfl⟩
  | _ =>
    rw [hfl] at hearly
    exact hearly.elim

omit [LinearOrder θ] in
theorem Window.Consistent.joins (hc : win.Consistent) (hopen : win.closed = false) (key : κ) (now : Nat)
    (closed : Bool) :
    ({ win with slots := joinSlots key now win.slots, closed := closed } : Window θ κ ν ε ℓ).Consistent := by
  obtain ⟨hearly, hdist, -, hkeys⟩ := hc.not_distributed hopen
  refine ⟨ascending_joinSlots hc.ascending key now, fun hn => (hn hearly).elim, fun ks hk => ?_, fun k ks hk => ?_,
    hc.done⟩
  · change win.flusher.keys = some ks at hk
    rw [hkeys] at hk
    cases hk
  · change lookup k (joinSlots key now win.slots) = some ks at hk
    rw [lookup_joinSlots] at hk
    change ks.result = win.flusher.distributed.map _
    split at hk
    · rw [← Option.some.inj hk, hdist]
      cases hl : lookup key win.slots with
      | none => rfl
      | some ks₀ =>
        have hr := hc.results key ks₀ hl
        rwa [hdist] at hr
    · exact hc.results k ks hk

omit [LinearOrder θ] [LinearOrder κ] in
theorem getElem?_snoc {α : Type} {l : List α} {x y : α} {i : Nat} (h : (l ++ [x])[i]? = some y) :
    l[i]? = some y ∨ i = l.length ∧ y = x := by
  rw [List.getElem?_append] at h
  split at h
  · exact Or.inl h
  · rename_i hge
    have hzero : i - l.length < 1 := (List.getElem?_eq_some_iff.1 h).1
    obtain rfl : i = l.length := by omega
    rw [Nat.sub_self] at h
    exact Or.inr ⟨rfl, (Option.some.inj h).symm⟩

omit [LinearOrder θ] [LinearOrder κ] in
/-- A fetch that has moved, and the others. -/
theorem fetches_set {fs : List (Fetch θ κ ν ε ℓ)} {i j : Nat} {f g : Fetch θ κ ν ε ℓ}
    (hg : (fs.set i f)[j]? = some g) : j = i ∧ g = f ∨ j ≠ i ∧ fs[j]? = some g := by
  by_cases hij : j = i
  · subst hij
    have hlt : j < fs.length := by simpa using (List.getElem?_eq_some_iff.1 hg).1
    rw [List.getElem?_set_self hlt] at hg
    exact Or.inl ⟨rfl, (Option.some.inj hg).symm⟩
  · rw [List.getElem?_set_ne (Ne.symm hij)] at hg
    exact Or.inr ⟨hij, hg⟩

/-- A fetch that is about to fork is the creator of its window. -/
theorem Inv.creator (h : Inv cfg s) (hw : s.made[w]? = some win) {i : Nat} {f : Fetch θ κ ν ε ℓ} {joinedAt : Nat}
    (hf : s.fetches[i]? = some f) (hp : f.progress = .installed w joinedAt) : win.flusher = .unforked i := by
  have hfc := h.fetch i f hf
  unfold Fetch.Consistent at hfc
  rw [hp] at hfc
  obtain ⟨win₀, hj, hun⟩ := hfc
  rw [hj.made] at hw
  cases hw
  exact hun

/-- A window that is not called has no calls. -/
theorem Filled.no_calls (h : Filled cfg s w win) (hn : win.flusher.called = false) :
    ∀ c ∈ s.calls, c.window ≠ w := by
  intro c hc hcw
  obtain ⟨t, ht⟩ := h.calls
  rw [hn] at ht
  have hm : c ∈ s.calls.filter (fun c => c.window = w) := List.mem_filter.2 ⟨hc, by simpa using hcw⟩
  rw [ht] at hm
  exact absurd hm List.not_mem_nil

omit [LinearOrder θ] [LinearOrder κ] in
/-- Another fetch than the one that moves is where it was. -/
theorem fetches_stay {fs : List (Fetch θ κ ν ε ℓ)} {i j : Nat} {f g : Fetch θ κ ν ε ℓ} (f' : Fetch θ κ ν ε ℓ)
    (hf : fs[i]? = some f) (hg : fs[j]? = some g) (hne : g.progress ≠ f.progress) : (fs.set i f')[j]? = some g := by
  have hij : i ≠ j := by
    rintro rfl
    rw [hf] at hg
    cases hg
    exact hne rfl
  rw [List.getElem?_set_ne hij]
  exact hg

/-- A fetch joins an open window, and may close it. -/
theorem Inv.join_window (h : Inv cfg s) (hw : s.made[w]? = some win) (hopen : win.closed = false) {i : Nat}
    {f : Fetch θ κ ν ε ℓ} (hf : s.fetches[i]? = some f) (hp : f.progress = .start) (hty : win.ty = f.ty) {now : Nat}
    {closed : Bool}
    (hmade : s'.made = s.made.set w { win with slots := joinSlots f.key now win.slots, closed := closed })
    (hfetches : s'.fetches = s.fetches) (hcalls : s'.calls = s.calls) (hclock : s'.clock = s.clock)
    (hwindows : Closes s s' w win { win with slots := joinSlots f.key now win.slots, closed := closed })
    (hsize : closed = false → ((joinSlots f.key now win.slots).length : Int) < max 1 cfg.maxBatch) :
    Inv cfg (s'.move i f (.waiting w s.clock)).tick := by
  have hfilled := h.window w win hw
  have hc := hfilled.consistent
  obtain ⟨hearly, hdist, hcalled, -⟩ := hc.not_distributed hopen
  obtain ⟨hl, hlt⟩ := hfilled.isOpen hopen
  have hlen := length_joinSlots hc.ascending f.key now
  refine h.change [] hw hmade (congrArg (· + 1) hclock) (hcalls.trans (List.append_nil _).symm) (by simp)
    ⟨rfl, rfl, fun k hk => (mem_keys_joinSlots hc.ascending _ _ _).2 (Or.inr hk), fun _ ho => ho⟩
    hwindows.others (hwindows.open_self h hw rfl) (fun j g u joinedAt _ hg hgp => ?_) (fun j g hg _ => ?_) ?_
  · change (s'.fetches.set i _)[j]? = some g
    rw [hfetches]
    exact fetches_stay _ hf hg (by simp [hp, hgp])
  · change (s'.fetches.set i _)[j]? = some g at hg
    rw [hfetches] at hg
    rcases fetches_set hg with ⟨rfl, rfl⟩ | ⟨-, hold⟩
    · refine Or.inr ⟨{ win with slots := joinSlots f.key now win.slots, closed := closed }, ?_, hty, ?_, ?_, ?_⟩
      · change s'.made[w]? = _
        rw [hmade, List.getElem?_set_self (List.getElem?_eq_some_iff.1 hw).1]
      · exact (mem_keys_joinSlots hc.ascending f.key f.key now).2 (Or.inl rfl)
      · change s.clock < s'.clock + 1
        omega
      · intro c hcm hcw
        change c ∈ s'.calls at hcm
        rw [hcalls] at hcm
        exact (hfilled.no_calls hcalled c hcm hcw).elim
    · exact Or.inl ⟨hold, fun joinedAt hgp => h.creator hw hold hgp⟩
  · refine ⟨hc.joins hopen f.key now closed, ?_, fun hclosed => ⟨?_, hsize hclosed⟩, ?_, fun j hj => ?_⟩
    · change ((joinSlots f.key now win.slots).length : Int) ≤ _
      rw [hlen]
      split <;> push_cast <;> omega
    · rcases hwindows with ⟨hsame, -⟩ | ⟨-, -, hnow⟩
      · change lookup win.ty s'.windows = some w
        rw [hsame]
        exact hl
      · change closed = true at hnow
        rw [hnow] at hclosed
        cases hclosed
    · obtain ⟨t, ht⟩ := hfilled.calls
      refine ⟨t, ?_⟩
      change s'.calls.filter _ = if win.flusher.called = true then _ else []
      rw [hcalls, ht, hcalled]
      rfl
    · obtain ⟨g, joinedAt, hg, hgp⟩ := hfilled.creator j hj
      refine ⟨g, joinedAt, ?_, hgp⟩
      change (s'.fetches.set i _)[j]? = some g
      rw [hfetches]
      exact fetches_stay _ hf hg (by simp [hp, hgp])

/-- **A fetch joins the open window.** -/
theorem Inv.join (h : Inv cfg s) {i : Nat} {f : Fetch θ κ ν ε ℓ} (hf : s.fetches[i]? = some f)
    (hp : f.progress = .start) {now : Nat} (hjoin : tryJoin cfg s f.ty f.key now = some (w, s')) :
    Inv cfg (s'.move i f (.waiting w s.clock)).tick := by
  unfold tryJoin at hjoin
  obtain ⟨⟨v, win⟩, hopen, heq⟩ := Option.map_eq_some_iff.1 hjoin
  obtain ⟨hl, hw, hty, hcl⟩ := h.window_of_open hopen
  have hfilled := h.window v win hw
  dsimp only at heq
  split at heq
  · cases heq
    refine h.join_window hw hcl hf hp hty rfl rfl rfl rfl (Or.inr ⟨by rw [hty]; exact hl, ?_, rfl⟩) (fun hf => by cases hf)
    rw [hty]
    rfl
  · rename_i hnot
    cases heq
    refine h.join_window hw hcl hf hp hty rfl rfl rfl rfl (Or.inl ⟨rfl, rfl⟩) fun _ => ?_
    rw [not_and] at hnot
    rw [length_joinSlots hfilled.consistent.ascending] at hnot ⊢
    by_cases hn : (lookup f.key win.slots).isNone
    · exact not_le.1 (hnot hn)
    · rw [if_neg hn]
      exact (hfilled.isOpen hcl).2

/-- A fetch moves without touching a window. -/
theorem Inv.moves (h : Inv cfg s) {i : Nat} {f : Fetch θ κ ν ε ℓ} (hf : s.fetches[i]? = some f) {p : Progress ν ε}
    (hp : ∀ w joinedAt, f.progress ≠ .installed w joinedAt)
    (hnew : Later s (s.move i f p).tick → Fetch.Consistent (s.move i f p).tick i { f with progress := p }) :
    Inv cfg (s.move i f p).tick := by
  refine h.moved rfl rfl rfl rfl (fun j g w joinedAt hg hgp => ?_) fun j g hg hlater => ?_
  · exact fetches_stay _ hf hg (by rw [hgp]; exact (hp w joinedAt).symm)
  · rcases fetches_set hg with ⟨rfl, rfl⟩ | ⟨-, hold⟩
    · exact Or.inr (hnew hlater)
    · exact Or.inl hold

omit [LinearOrder θ] in
theorem newWindow_consistent (cfg : Config) (i : Nat) (f : Fetch θ κ ν ε ℓ) (now : Nat) :
    (newWindow cfg i f now).Consistent := by
  refine ⟨List.pairwise_singleton _ _, fun he => (he trivial).elim, fun ks hk => (by cases hk), fun k ks hk => ?_, rfl⟩
  simp only [newWindow, lookup] at hk
  split at hk
  · rw [← Option.some.inj hk]
    rfl
  · cases hk

omit [LinearOrder κ] in
theorem install_eq {i : Nat} {f : Fetch θ κ ν ε ℓ} {t : Nat} (hinst : install cfg s i f t = some s') :
    lookup f.ty s.windows = none ∧
      s'.windows = (if cfg.solo then s.windows else insert f.ty s.made.length s.windows) ∧
      s'.made = s.made ++ [newWindow cfg i f t] ∧ s'.fetches = s.fetches ∧ s'.calls = s.calls ∧
      s'.clock = s.clock := by
  unfold Coalesce.install at hinst
  split at hinst
  · cases hinst
  · rename_i hnone
    cases hinst
    exact ⟨hnone, rfl, rfl, rfl, rfl, rfl⟩

/-- **The window of a fetch is installed.** -/
theorem Inv.install (h : Inv cfg s) {i : Nat} {f : Fetch θ κ ν ε ℓ} (hf : s.fetches[i]? = some f) {t : Nat}
    (hp : f.progress = .creating t) (hinst : install cfg s i f t = some s') :
    Inv cfg (s'.move i f (.installed s.made.length s.clock)).tick := by
  obtain ⟨hnone, hwindows, hmade, hfetches, hcalls, hclock⟩ := install_eq hinst
  have hself : s'.made[s.made.length]? = some (newWindow cfg i f t) := by simp [hmade]
  have hold (v : Nat) (win : Window θ κ ν ε ℓ) (hv : s.made[v]? = some win) : s'.made[v]? = some win := by
    rw [hmade, List.getElem?_append_left (List.getElem?_eq_some_iff.1 hv).1, hv]
  have hlater : Later s (s'.move i f (.installed s.made.length s.clock)).tick := by
    refine ⟨?_, fun v win hv => ⟨win, hold v win hv, Window.Grows.refl win⟩, fun c hc => Or.inl ?_⟩
    · change s.clock ≤ s'.clock + 1
      omega
    · rw [← hcalls]
      exact hc
  have hilt : i < s'.fetches.length := hfetches ▸ (List.getElem?_eq_some_iff.1 hf).1
  refine ⟨fun j g hg => ?_, fun v win hv => ?_, fun ty v hv => ?_, fun c hc => ?_⟩
  · rcases fetches_set hg with ⟨rfl, rfl⟩ | ⟨-, hold'⟩
    · refine ⟨newWindow cfg j f t, ⟨hself, rfl, List.mem_singleton.2 rfl, ?_, fun c hc hcw => ?_⟩, rfl⟩
      · change s.clock < s'.clock + 1
        omega
      · rw [show (s'.move j f _).tick.calls = s.calls from hcalls] at hc
        exact absurd hcw (h.calls c hc).ne
    · rw [hfetches] at hold'
      refine (h.fetch j g hold').later hlater fun v joinedAt win hgp hv => ?_
      have hgc := h.fetch j g hold'
      unfold Fetch.Consistent at hgc
      rw [hgp] at hgc
      obtain ⟨win₀, hj, hun⟩ := hgc
      have hv' := hold v win₀ hj.made
      rw [show s'.made[v]? = some win from hv] at hv'
      cases hv'
      exact hun
  · rw [show (s'.move i f _).tick.made = s.made ++ [newWindow cfg i f t] from hmade] at hv
    rcases getElem?_snoc hv with hv | ⟨rfl, rfl⟩
    · refine (h.window v win hv).later (fun hl => ?_) (by rw [show (s'.move i f _).tick.calls = s.calls from hcalls])
        fun j g joinedAt hg hgp => ⟨g, ?_, hgp⟩
      · rw [show (s'.move i f _).tick.windows = _ from hwindows]
        split
        · exact hl
        · rw [lookup_insert, if_neg]
          · exact hl
          · intro heq
            rw [heq, hnone] at hl
            cases hl
      · exact fetches_stay _ (hfetches ▸ hf) (hfetches ▸ hg) (by simp [hp, hgp])
    · refine ⟨newWindow_consistent cfg i f t, le_max_left _ _, fun hclosed => ?_, ⟨0, ?_⟩, fun j hj => ?_⟩
      · have hsolo : cfg.solo = false := hclosed
        constructor
        · rw [show (s'.move i f _).tick.windows = _ from hwindows, if_neg (by simp [hsolo]), lookup_insert]
          exact if_pos rfl
        · have hgt : 1 < cfg.maxBatch := not_le.1 (of_decide_eq_false hsolo)
          change ((1 : Nat) : Int) < _
          omega
      · rw [show (s'.move i f _).tick.calls = s.calls from hcalls]
        refine List.filter_eq_nil_iff.2 fun c hc => ?_
        simpa using (h.calls c hc).ne
      · cases hj
        exact ⟨_, s.clock, List.getElem?_set_self hilt, rfl⟩
  · rw [show (s'.move i f _).tick.windows = _ from hwindows] at hv
    have hrest (hl : lookup ty s.windows = some v) :
        ∃ win, s'.made[v]? = some win ∧ win.ty = ty ∧ win.closed = false := by
      obtain ⟨win, hm, ht⟩ := h.isOpen ty v hl
      exact ⟨win, hold v win hm, ht⟩
    split at hv
    · exact hrest hv
    · rename_i hsolo
      rw [lookup_insert] at hv
      split at hv
      · rename_i hty
        cases hv
        exact ⟨newWindow cfg i f t, hself, hty.symm, by simpa [newWindow] using hsolo⟩
      · exact hrest hv
  · rw [show (s'.move i f _).tick.calls = s.calls from hcalls] at hc
    rw [show (s'.move i f _).tick.made = s.made ++ [newWindow cfg i f t] from hmade, List.length_append]
    exact Nat.lt_of_lt_of_le (h.calls c hc) (Nat.le_add_right _ _)

/-- **The flusher of a window is forked.** -/
theorem Inv.fork (h : Inv cfg s) {i : Nat} {f : Fetch θ κ ν ε ℓ} (hf : s.fetches[i]? = some f) {joinedAt : Nat}
    (hp : f.progress = .installed w joinedAt) (hw : s.made[w]? = some win) :
    Inv cfg ((s.setWindow w { win with flusher := .waiting cfg.solo }).move i f (.waiting w joinedAt)).tick := by
  have hfl := h.creator hw hf hp
  have hfilled := h.window w win hw
  have hc := hfilled.consistent
  have hfc := h.fetch i f hf
  unfold Fetch.Consistent at hfc
  rw [hp] at hfc
  obtain ⟨win₀, hj, -⟩ := hfc
  obtain ⟨t, ht⟩ := hfilled.calls
  rw [hfl] at ht
  refine h.change [] hw rfl rfl (List.append_nil _).symm (by simp)
    ⟨rfl, rfl, fun _ hk => hk, by simp [hfl, Flusher.outcome]⟩ (fun _ _ _ => Iff.rfl) (fun ty hl => ?_)
    (fun j g v at' hne hg hgp => ?_) (fun j g hg hlater => ?_) ?_
  · obtain ⟨win₁, hm, hty, hcl⟩ := h.isOpen ty w hl
    rw [hw] at hm
    cases hm
    exact ⟨hty, hcl⟩
  · refine fetches_stay _ hf hg ?_
    rw [hgp, hp]
    rintro heq
    cases heq
    exact hne rfl
  · rcases fetches_set hg with ⟨rfl, rfl⟩ | ⟨hji, hold⟩
    · obtain ⟨win₁, -, hj₁⟩ := hj.later hlater
      exact Or.inr ⟨win₁, hj₁.made, hj₁.ty, hj₁.key, hj₁.before⟩
    · refine Or.inl ⟨hold, fun at' hgp => ?_⟩
      have hother := h.creator hw hold hgp
      rw [hfl] at hother
      cases hother
      exact (hji rfl).elim
  · refine ⟨⟨hc.ascending, fun he => (he trivial).elim, fun ks hk => (by cases hk), fun k ks hk => ?_, ?_⟩,
      hfilled.size, hfilled.isOpen, ⟨t, ht⟩, fun j hj => by cases hj⟩
    · have hr := hc.results k ks hk
      rwa [hfl] at hr
    · have hd := hc.done
      rwa [hfl] at hd

/-- **A fetch gets its answer.** -/
theorem Inv.answer (h : Inv cfg s) {i : Nat} {f : Fetch θ κ ν ε ℓ} (hf : s.fetches[i]? = some f) {joinedAt : Nat}
    (hp : f.progress = .waiting w joinedAt) {r : Except ε (Option ν)} (hr : s.result w f.key = some r) :
    Inv cfg (s.move i f (.answered w joinedAt r)).tick := by
  have hfc := h.fetch i f hf
  unfold Fetch.Consistent at hfc
  rw [hp] at hfc
  obtain ⟨win, hj⟩ := hfc
  unfold State.result at hr
  rw [hj.made, Option.bind_some, Option.bind_eq_some_iff] at hr
  obtain ⟨ks, hks, hres⟩ := hr
  rw [(h.window w win hj.made).consistent.results f.key ks hks, Option.map_eq_some_iff] at hres
  obtain ⟨o, ho, rfl⟩ := hres
  have hout : win.flusher.outcome = some o := by
    cases hfl : win.flusher with
    | finished o' =>
      rw [hfl] at ho
      exact ho
    | _ =>
      rw [hfl] at ho
      cases ho
  refine h.moves hf (by simp [hp]) fun hlater => ?_
  obtain ⟨win', hgrows, hj'⟩ := hj.later hlater
  exact ⟨win', ⟨hj'.made, hj'.ty, hj'.key, hj'.before⟩, o, hgrows.outcome o hout, rfl⟩

theorem Inv.enqueue (h : Inv cfg s) {i : Nat} {f : Fetch θ κ ν ε ℓ} (hf : s.fetches[i]? = some f) {now : Nat}
    (hstep : enqueue cfg s i f now = some s') : Inv cfg s'.tick := by
  unfold Coalesce.enqueue at hstep
  cases hp : f.progress with
  | start =>
    simp only [hp] at hstep
    split at hstep
    · rename_i w s₁ hjoin
      cases hstep
      exact h.join hf hp hjoin
    · cases hstep
      exact h.moves hf (by simp [hp]) fun _ => trivial
  | creating t =>
    simp only [hp] at hstep
    split at hstep
    · rename_i s₁ hinst
      cases hstep
      exact h.install hf hp hinst
    · cases hstep
      exact h.moves hf (by simp [hp]) fun _ => trivial
  | installed w joinedAt =>
    simp only [hp, Option.map_eq_some_iff] at hstep
    obtain ⟨win, hw, rfl⟩ := hstep
    exact h.fork hf hp hw
  | waiting w joinedAt =>
    simp only [hp, Option.map_eq_some_iff] at hstep
    obtain ⟨r, hr, rfl⟩ := hstep
    exact h.answer hf hp hr
  | answered w joinedAt r => simp [hp] at hstep

/-! ## Runs -/

theorem Inv.fetch_arrives (h : Inv cfg s) (ty : θ) (key : κ) (loader : ℓ) :
    Inv cfg (State.tick { s with fetches := s.fetches ++ [⟨ty, key, loader, .start⟩] }) := by
  refine h.moved rfl rfl rfl rfl (fun i f w joinedAt hf _ => ?_) fun i f hf _ => ?_
  · exact (List.getElem?_append_left (List.getElem?_eq_some_iff.1 hf).1).trans hf
  · rcases getElem?_snoc hf with hf | ⟨-, rfl⟩
    · exact Or.inl hf
    · exact Or.inr trivial

/-- **Every step keeps the invariant.** -/
theorem Inv.step (h : Inv cfg s) {e : Event θ κ ν ε ℓ} (hstep : step cfg s e = some s') : Inv cfg s' := by
  cases e with
  | fetch ty key loader =>
    cases hstep
    exact h.fetch_arrives ty key loader
  | flushNow ty =>
    cases hstep
    exact h.flushNow ty
  | enqueue i now =>
    obtain ⟨f, hf, hmap⟩ := Option.bind_eq_some_iff.1 hstep
    obtain ⟨s₁, hs₁, rfl⟩ := Option.map_eq_some_iff.1 hmap
    exact h.enqueue hf hs₁
  | expire w =>
    obtain ⟨win, hw, hmap⟩ := Option.bind_eq_some_iff.1 hstep
    obtain ⟨s₁, hs₁, rfl⟩ := Option.map_eq_some_iff.1 hmap
    exact h.expire hw hs₁
  | runFlush w now loaded =>
    obtain ⟨win, hw, hmap⟩ := Option.bind_eq_some_iff.1 hstep
    obtain ⟨s₁, hs₁, rfl⟩ := Option.map_eq_some_iff.1 hmap
    exact h.runFlush hw hs₁

theorem Inv.run {es : List (Event θ κ ν ε ℓ)} (h : Inv cfg s) (hrun : run (Coalesce.step cfg) s es = some s') :
    Inv cfg s' :=
  run_invariant (P := fun _ _ => True) (fun _ _ _ ht _ he => ht.step he) h (along_of_forall (fun _ _ => trivial) s es)
    hrun

end Wireform.Lattice.Coalesce
