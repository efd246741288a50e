/-
  What the generations of the interpreter tell.

  Every start request is a ticket: its number, its source and its generation.

  * `Applied`: what carrying out a request does, one statement for timers and
    invocations;
  * `Sound`: the generation of a source is the number of its requests, tickets
    are issued once, and a live thread is the current one of its source;
  * `sound`: every reached driver is sound.
-/
import Wireform.StateMachine.Interpret

namespace Wireform.StateMachine

variable {T : Types}

/-! ## Accessors -/

/-- The generation of a source. -/
def Armed.gen (a : Armed) : Source → Option Nat
  | .timer k => a.timerGens.lookup k
  | .invoke i => a.invokeGens.lookup i

attribute [grind =] Armed.gen

/-- The live thread of a source. -/
def Armed.live (a : Armed) : Source → Option Nat
  | .timer k => a.timers.lookup k
  | .invoke i => (a.runs.lookup i).map Run.thread

attribute [grind =] Armed.live

/-- What carrying out a request does: it cancels the live thread of the source,
    and a start has a new thread, or the error of one. -/
structure Applied (d : Driver T) (e : EffectReq) (started : List Thread) (failed : List (IEvent T)) (d' : Driver T) : Prop where
  threads : d'.threads = (d.cancel (d.armed.live e.source)).threads ++ started
  queue : d'.queue = d.queue ++ failed
  fresh : started ++ failed.filterMap IEvent.thread =
    if e.starts = true then [⟨d.requests.length, e.source, 1 + (d.armed.gen e.source).getD 0⟩] else []
  results : ∀ q ∈ failed, q.thread ≠ none
  gen : ∀ s, d'.armed.gen s = if s = e.source then some (1 + (d.armed.gen s).getD 0) else d.armed.gen s
  live : ∀ s, d'.armed.live s = if s = e.source then started.head?.map Thread.id else d.armed.live s
  requests : d'.requests = d.requests ++ [e]
  machine : d'.machine = d.machine
  accepting : d'.accepting = d.accepting
  outcome : d'.outcome = d.outcome
  traces : d'.traces = d.traces
  handled : d'.handled = d.handled
  accepted : d'.accepted = d.accepted
  phase : d'.phase = d.phase

theorem timer_gen (a : Armed) (key : TimerKey) (ts : AssocMap TimerKey Nat) (s : Source) :
    Armed.gen { a with timerGens := a.timerGens.insert key (1 + (a.timerGens.lookup key).getD 0), timers := ts } s =
      if s = .timer key then some (1 + (a.gen s).getD 0) else a.gen s := by
  cases s with
  | invoke i => simp [Armed.gen]
  | timer k =>
    simp only [Armed.gen, AssocMap.lookup_insert, Source.timer.injEq]
    split_ifs with hk
    · rw [hk]
    · rfl

theorem invoke_gen (a : Armed) (i : String) (rs : AssocMap String Run) (s : Source) :
    Armed.gen { a with invokeGens := a.invokeGens.insert i (1 + (a.invokeGens.lookup i).getD 0), runs := rs } s =
      if s = .invoke i then some (1 + (a.gen s).getD 0) else a.gen s := by
  cases s with
  | timer k => simp [Armed.gen]
  | invoke j =>
    simp only [Armed.gen, AssocMap.lookup_insert, Source.invoke.injEq]
    split_ifs with hj
    · rw [hj]
    · rfl

theorem timer_live_insert (a : Armed) (key : TimerKey) (gs : AssocMap TimerKey Nat) (n : Nat) (s : Source) :
    Armed.live { a with timerGens := gs, timers := a.timers.insert key n } s =
      if s = .timer key then some n else a.live s := by
  cases s <;> simp [Armed.live]

theorem invoke_live_insert (a : Armed) (i : String) (gs : AssocMap String Nat) (r : Run) (s : Source) :
    Armed.live { a with invokeGens := gs, runs := a.runs.insert i r } s =
      if s = .invoke i then some r.thread else a.live s := by
  cases s with
  | timer k => simp [Armed.live]
  | invoke j =>
    simp only [Armed.live, AssocMap.lookup_insert, Source.invoke.injEq]
    split_ifs <;> rfl

theorem timer_live (a : Armed) (key : TimerKey) (gs : AssocMap TimerKey Nat) (s : Source) :
    Armed.live { a with timerGens := gs, timers := a.timers.erase key } s =
      if s = .timer key then none else a.live s := by
  cases s <;> simp [Armed.live, AssocMap.lookup_erase]

theorem invoke_live (a : Armed) (i : String) (gs : AssocMap String Nat) (s : Source) :
    Armed.live { a with invokeGens := gs, runs := a.runs.erase i } s = if s = .invoke i then none else a.live s := by
  cases s with
  | timer k => simp [Armed.live]
  | invoke j =>
    simp only [Armed.live, AssocMap.lookup_erase, Source.invoke.injEq]
    split_ifs <;> rfl

theorem start_thread {host : Host T} {failed : Option T.Dynamic} {src : String} {run : Nat → Run}
    (h : host.start failed src = .ok run) (n : Nat) : (run n).thread = n := by
  unfold Host.start at h
  split at h
  · cases h
  · cases h
    rfl
  · cases h
    rfl
  · split at h
    · cases h
    · cases h
      rfl

theorem applyEffect_applied (host : Host T) (fails : Option T.Dynamic) (d : Driver T) (e : EffectReq) :
    ∃ started failed, Applied d e started failed (d.applyEffect host fails e) := by
  cases e with
  | startTimer key =>
    exact ⟨[⟨d.requests.length, .timer key, 1 + (d.armed.timerGens.lookup key).getD 0⟩], [], rfl,
      (List.append_nil _).symm, rfl, fun _ h => absurd h List.not_mem_nil, timer_gen _ _ _, timer_live_insert _ _ _ _,
      rfl, rfl, rfl, rfl, rfl, rfl, rfl, rfl⟩
  | cancelTimer key =>
    exact ⟨[], [], (List.append_nil _).symm, (List.append_nil _).symm, rfl, fun _ h => absurd h List.not_mem_nil,
      timer_gen _ _ _, timer_live _ _ _, rfl, rfl, rfl, rfl, rfl, rfl, rfl, rfl⟩
  | cancelInvoke i =>
    exact ⟨[], [], (List.append_nil _).symm, (List.append_nil _).symm, rfl, fun _ h => absurd h List.not_mem_nil,
      invoke_gen _ _ _, invoke_live _ _ _, rfl, rfl, rfl, rfl, rfl, rfl, rfl, rfl⟩
  | startInvoke i src n =>
    have happ : d.applyEffect host fails (.startInvoke i src n) =
        { d.startInvoke host fails i src with requests := d.requests ++ [.startInvoke i src n] } := rfl
    rw [happ, Driver.startInvoke]
    cases hstart : host.start fails src with
    | error v =>
      refine ⟨[], [.invokeError i (1 + (d.armed.invokeGens.lookup i).getD 0) v d.requests.length],
        (List.append_nil _).symm, rfl, rfl, ?_, invoke_gen _ _ _, invoke_live _ _ _, rfl, rfl, rfl, rfl, rfl, rfl, rfl, rfl⟩
      intro q hq
      rw [List.mem_singleton.1 hq]
      exact Option.some_ne_none _
    | ok run =>
      refine ⟨[⟨d.requests.length, .invoke i, 1 + (d.armed.invokeGens.lookup i).getD 0⟩], [], rfl,
        (List.append_nil _).symm, rfl, fun _ h => absurd h List.not_mem_nil, invoke_gen _ _ _, ?_, rfl, rfl, rfl, rfl, rfl,
        rfl, rfl, rfl⟩
      intro s
      refine (invoke_live_insert _ _ _ _ _).trans ?_
      rw [start_thread hstart]
      rfl

/-! ## Tickets -/

/-- The tickets that are out or used: of the live threads, in the queue, taken from
    it. -/
def Driver.tickets (d : Driver T) : List Thread :=
  d.threads ++ (d.queue.filterMap IEvent.thread ++ (d.handled.map Handled.event).filterMap IEvent.thread)

/-- How many requests are about a source. -/
def about (s : Source) (reqs : List EffectReq) : Nat := reqs.countP fun e => decide (e.source = s)

/-- The start request of a ticket. -/
structure Issued (reqs : List EffectReq) (t : Thread) : Prop where
  request : ∃ pre e post, reqs = pre ++ e :: post ∧ pre.length = t.id ∧ e.source = t.source ∧ e.starts = true ∧
    t.gen = about t.source pre + 1

/-- The generations of the sources, and the tickets. -/
structure Sound (d : Driver T) : Prop where
  gens : d.phase ≠ .stopped → ∀ s, d.armed.gen s = if about s d.requests = 0 then none else some (about s d.requests)
  issued : ∀ t ∈ d.tickets, Issued d.requests t
  nodup : (d.tickets.map Thread.id).Nodup
  live : d.phase ≠ .stopped → ∀ t ∈ d.threads, d.armed.live t.source = some t.id ∧ d.armed.gen t.source = some t.gen
  entry : d.phase ≠ .stopped → ∀ s p, d.armed.live s = some p → ∃ t ∈ d.tickets, t.id = p ∧ t.source = s
  kept : d.phase ≠ .stopped → ∀ pre e post, d.requests = pre ++ e :: post → e.starts = true →
    (∀ e' ∈ post, e'.source ≠ e.source) → pre.length ∈ d.tickets.map Thread.id
  stopped : d.phase = .stopped → d.threads = [] ∧ d.armed = emptyArmed

@[simp] theorem about_append (s : Source) (reqs reqs' : List EffectReq) :
    about s (reqs ++ reqs') = about s reqs + about s reqs' := List.countP_append

@[simp] theorem about_cons (s : Source) (e : EffectReq) (reqs : List EffectReq) :
    about s (e :: reqs) = about s reqs + if e.source = s then 1 else 0 := by simp [about, List.countP_cons]

@[simp] theorem about_nil (s : Source) : about s [] = 0 := rfl

variable {reqs : List EffectReq} {t : Thread}

theorem about_eq_zero {s : Source} : about s reqs = 0 ↔ ∀ e ∈ reqs, e.source ≠ s := by
  simp [about, List.countP_eq_zero]

theorem Issued.append (h : Issued reqs t) (reqs' : List EffectReq) :
    Issued (reqs ++ reqs') t := by
  obtain ⟨pre, e, post, rfl, hrest⟩ := h.request
  exact ⟨pre, e, post ++ reqs', by simp, hrest⟩

theorem Issued.id_lt (h : Issued reqs t) : t.id < reqs.length := by
  obtain ⟨pre, e, post, rfl, hid, -⟩ := h.request
  simp [← hid]

/-- A ticket has the current generation exactly when no request about its source
    came after its own. -/
theorem Issued.gen_eq (h : Issued reqs t) :
    about t.source reqs = t.gen ↔
      ∀ e ∈ reqs.drop (t.id + 1), e.source ≠ t.source := by
  obtain ⟨pre, e, post, rfl, hid, hs, -, hgen⟩ := h.request
  have hdrop : (pre ++ e :: post).drop (t.id + 1) = post := by
    rw [← hid]
    simp
  rw [hdrop, ← about_eq_zero, hgen, about_append, about_cons, if_pos hs]
  omega

/-- A source and a generation determine the ticket. -/
theorem Issued.id_eq {t t' : Thread} (h : Issued reqs t) (h' : Issued reqs t')
    (hs : t.source = t'.source) (hg : t.gen = t'.gen) : t.id = t'.id := by
  obtain ⟨pre, e, post, heq, hid, hes, -, hgen⟩ := h.request
  obtain ⟨pre', e', post', heq', hid', hes', -, hgen'⟩ := h'.request
  rw [← hid, ← hid']
  rcases List.append_eq_append_iff.1 (heq.symm.trans heq') with ⟨l, hl, hr⟩ | ⟨l, hl, hr⟩
  · cases l with
    | nil => rw [hl, List.append_nil]
    | cons x l =>
      rw [List.cons_append, List.cons.injEq] at hr
      obtain ⟨rfl, -⟩ := hr
      rw [hgen, hgen', hl, ← hs] at hg
      simp [hes] at hg
  · cases l with
    | nil => rw [hl, List.append_nil]
    | cons x l =>
      rw [List.cons_append, List.cons.injEq] at hr
      obtain ⟨rfl, -⟩ := hr
      rw [hgen, hgen', hl, hs] at hg
      simp [hes'] at hg

/-! ## Soundness -/

theorem sound_boot (s : Stepped T) : Sound (Driver.boot s) := by
  constructor
  · intro _ s'
    cases s' <;> rfl
  · intro t ht
    cases ht
  · exact List.nodup_nil
  · intro _ t ht
    cases ht
  · intro _ s' p hp
    cases s' <;> cases hp
  · intro _ pre e post h
    exact absurd h (by simp [Driver.boot])
  · intro h
    cases h

/-- Soundness only reads the requests, the maps and the tickets. -/
theorem Sound.congr {d d' : Driver T} (h : Sound d) (hreq : d'.requests = d.requests) (hgen : d'.armed.gen = d.armed.gen)
    (hlive : ∀ t ∈ d'.threads, t ∈ d.threads ∧ d'.armed.live t.source = d.armed.live t.source)
    (hentry : ∀ s p, d'.armed.live s = some p → d.armed.live s = some p)
    (hphase : d'.phase = .stopped ↔ d.phase = .stopped) (hstop : d.phase = .stopped → d'.armed = d.armed)
    (hp : d'.tickets.Perm d.tickets) : Sound d' where
  gens hne := by
    rw [hreq, hgen]
    exact h.gens (mt hphase.2 hne)
  issued t ht := by
    rw [hreq]
    exact h.issued t (hp.mem_iff.1 ht)
  nodup := (hp.map _).nodup_iff.2 h.nodup
  live hne t ht := by
    obtain ⟨hmem, heq⟩ := hlive t ht
    rw [heq, hgen]
    exact h.live (mt hphase.2 hne) t hmem
  entry hne s p hsp := by
    obtain ⟨t, ht, hts⟩ := h.entry (mt hphase.2 hne) s p (hentry s p hsp)
    exact ⟨t, hp.mem_iff.2 ht, hts⟩
  kept hne pre e post heq hs hpost := by
    rw [hreq] at heq
    exact (hp.map _).mem_iff.2 (h.kept (mt hphase.2 hne) pre e post heq hs hpost)
  stopped hst := by
    obtain ⟨hthreads, harmed⟩ := h.stopped (hphase.1 hst)
    refine ⟨List.eq_nil_iff_forall_not_mem.2 fun t ht => ?_, (hstop (hphase.1 hst)).trans harmed⟩
    exact absurd (hlive t ht).1 (hthreads ▸ List.not_mem_nil)

theorem nodup_threads {d : Driver T} (h : Sound d) : (d.threads.map Thread.id).Nodup := by
  have hnodup := h.nodup
  rw [Driver.tickets, List.map_append] at hnodup
  exact hnodup.of_append_left

/-- A thread that ends has its result in the queue. -/
theorem tickets_result {d : Driver T} (h : Sound d) (ht : t ∈ d.threads) {e : IEvent T} (he : e.thread = some t) :
    ((d.cancel (some t.id)).enqueue e).tickets.Perm d.tickets := by
  have hthreads : d.threads.Perm (t :: d.threads.filter fun t' => some t'.id ≠ some t.id) := by
    obtain ⟨l₁, l₂, hl⟩ := List.append_of_mem ht
    have hnodup := nodup_threads h
    rw [hl, List.map_append, List.map_cons, List.nodup_middle, List.nodup_cons, ← List.map_append] at hnodup
    rw [hl, List.filter_append, List.filter_cons, if_neg (by simp), ← List.filter_append]
    have hall : (l₁ ++ l₂).filter (fun t' => decide (some t'.id ≠ some t.id)) = l₁ ++ l₂ := by
      refine List.filter_eq_self.2 fun t' ht' => decide_eq_true fun hid => ?_
      exact hnodup.1 (Option.some.inj hid ▸ List.mem_map_of_mem ht')
    rw [hall]
    exact List.perm_middle
  unfold Driver.tickets
  refine List.Perm.trans ?_ (hthreads.append_right _).symm
  change (d.threads.filter _ ++ ((d.queue ++ [e]).filterMap _ ++ _)).Perm _
  rw [List.filterMap_append, List.filterMap_cons, he, List.cons_append]
  refine List.Perm.trans ?_ List.perm_middle
  refine List.Perm.append_left _ ?_
  rw [List.append_assoc]
  exact List.perm_middle

theorem Sound.result {d : Driver T} (h : Sound d) (ht : t ∈ d.threads) {e : IEvent T} (he : e.thread = some t) :
    Sound ((d.cancel (some t.id)).enqueue e) :=
  h.congr rfl rfl (fun _ ht' => ⟨(List.mem_filter.1 ht').1, rfl⟩) (fun _ _ hsp => hsp) Iff.rfl (fun _ => rfl)
    (tickets_result h ht he)

theorem Sound.enqueue {d : Driver T} (h : Sound d) {e : IEvent T} (he : e.thread = none) : Sound (d.enqueue e) := by
  refine h.congr rfl rfl (fun _ ht => ⟨ht, rfl⟩) (fun _ _ hsp => hsp) Iff.rfl (fun _ => rfl) ?_
  unfold Driver.tickets
  change (d.threads ++ ((d.queue ++ [e]).filterMap _ ++ _)).Perm _
  rw [List.filterMap_append, List.filterMap_cons, he, List.filterMap_nil, List.append_nil]
  exact List.Perm.refl _

theorem Sound.send {d : Driver T} (h : Sound d) (o : Origin) (e : T.EventVal) : Sound (d.send o e) := by
  unfold Driver.send
  split_ifs
  · have hq : Sound (d.enqueue (.external o e)) := h.enqueue rfl
    exact hq.congr rfl rfl (fun _ ht => ⟨ht, rfl⟩) (fun _ _ hsp => hsp) Iff.rfl (fun _ => rfl) (List.Perm.refl _)
  · exact h

/-- A change of the phase, short of the stop. -/
theorem Sound.phase {d d' : Driver T} (h : Sound d) (hreq : d'.requests = d.requests) (harmed : d'.armed = d.armed)
    (hthreads : d'.threads = d.threads) (htickets : d'.tickets = d.tickets)
    (hphase : d'.phase = .stopped ↔ d.phase = .stopped) : Sound d' := by
  refine h.congr hreq (harmed ▸ rfl) ?_ ?_ hphase (fun _ => harmed) (htickets ▸ List.Perm.refl _)
  · intro t ht
    rw [hthreads] at ht
    exact ⟨ht, harmed ▸ rfl⟩
  · intro s p hsp
    rwa [harmed] at hsp

theorem Sound.eq_of_id {d : Driver T} (h : Sound d) {t t' : Thread} (ht : t ∈ d.tickets) (ht' : t' ∈ d.tickets)
    (hid : t.id = t'.id) : t = t' := List.inj_on_of_nodup_map h.nodup ht ht' hid

section
variable {d d' : Driver T} {e : EffectReq} {started : List Thread} {failed : List (IEvent T)}

/-- The tickets that a request leaves, and those it adds. -/
def staying (d : Driver T) (e : EffectReq) : List Thread :=
  (d.cancel (d.armed.live e.source)).threads ++
    (d.queue.filterMap IEvent.thread ++ (d.handled.map Handled.event).filterMap IEvent.thread)

theorem staying_sublist (d : Driver T) (e : EffectReq) : (staying d e).Sublist d.tickets :=
  List.filter_sublist.append_right _

theorem Applied.tickets (ha : Applied d e started failed d') :
    d'.tickets.Perm ((started ++ failed.filterMap IEvent.thread) ++ staying d e) := by
  unfold Driver.tickets staying
  rw [ha.threads, ha.queue, ha.handled, List.filterMap_append]
  generalize (d.cancel (d.armed.live e.source)).threads = ts
  generalize List.filterMap IEvent.thread d.queue = qs
  generalize List.filterMap IEvent.thread failed = fs
  generalize List.filterMap IEvent.thread _ = hs
  rw [List.append_assoc, List.append_assoc, List.append_assoc]
  refine (List.perm_append_comm_assoc ts started _).trans (List.Perm.append_left _ ?_)
  refine List.Perm.trans (List.Perm.append_left _ (List.perm_append_comm_assoc qs fs hs)) ?_
  exact List.perm_append_comm_assoc ts fs _

/-- A ticket of another source stays. -/
theorem Sound.stays (h : Sound d) (hne : d.phase ≠ .stopped) {t : Thread} (ht : t ∈ d.tickets) (hs : t.source ≠ e.source) :
    t ∈ staying d e := by
  unfold staying
  rcases List.mem_append.1 ht with hthread | hrest
  · refine List.mem_append_left _ (List.mem_filter.2 ⟨hthread, decide_eq_true fun hlive => ?_⟩)
    obtain ⟨t', ht', hid, hsource⟩ := h.entry hne _ _ hlive.symm
    exact hs (h.eq_of_id ht' ht hid ▸ hsource)
  · exact List.mem_append_right _ hrest

theorem Applied.mem_fresh (ha : Applied d e started failed d') {t : Thread}
    (ht : t ∈ started ++ failed.filterMap IEvent.thread) :
    e.starts = true ∧ t = ⟨d.requests.length, e.source, 1 + (d.armed.gen e.source).getD 0⟩ := by
  rw [ha.fresh] at ht
  split_ifs at ht with hstarts
  · exact ⟨hstarts, List.mem_singleton.1 ht⟩
  · exact absurd ht List.not_mem_nil

theorem Sound.getD_gen (h : Sound d) (hne : d.phase ≠ .stopped) (s : Source) :
    (d.armed.gen s).getD 0 = about s d.requests := by
  rw [h.gens hne]
  split_ifs with hzero
  · exact hzero.symm
  · rfl

/-- **Carrying out a request keeps the driver sound.** -/
theorem Sound.applied (h : Sound d) (hne : d.phase ≠ .stopped) (ha : Applied d e started failed d') : Sound d' where
  gens _ s := by
    rw [ha.gen, ha.requests, about_append, about_cons, about_nil, Nat.zero_add]
    by_cases hs : s = e.source
    · rw [if_pos hs, if_pos hs.symm, if_neg (Nat.succ_ne_zero _), h.getD_gen hne, Nat.add_comm]
    · rw [if_neg hs, if_neg (Ne.symm hs), Nat.add_zero]
      exact h.gens hne s
  issued t ht := by
    rw [ha.requests]
    rcases List.mem_append.1 (ha.tickets.mem_iff.1 ht) with hfresh | hstay
    · obtain ⟨hstarts, rfl⟩ := ha.mem_fresh hfresh
      refine ⟨d.requests, e, [], rfl, rfl, rfl, hstarts, ?_⟩
      rw [h.getD_gen hne, Nat.add_comm]
    · exact (h.issued t ((staying_sublist d e).subset hstay)).append _
  nodup := by
    refine (ha.tickets.map _).nodup_iff.2 ?_
    rw [List.map_append]
    refine List.nodup_append.2 ⟨?_, ((staying_sublist d e).map _).nodup h.nodup, ?_⟩
    · rw [ha.fresh]
      split_ifs <;> simp
    · intro i hi j hj
      obtain ⟨t, ht, rfl⟩ := List.mem_map.1 hi
      obtain ⟨t', ht', rfl⟩ := List.mem_map.1 hj
      obtain ⟨-, rfl⟩ := ha.mem_fresh ht
      exact (h.issued t' ((staying_sublist d e).subset ht')).id_lt.ne'
  live _ t ht := by
    rw [ha.threads] at ht
    rcases List.mem_append.1 ht with ht | ht
    · obtain ⟨hmem, hkeep⟩ := List.mem_filter.1 ht
      obtain ⟨hlive, hgen⟩ := h.live hne t hmem
      have hs : t.source ≠ e.source := by
        intro hs
        rw [hs] at hlive
        exact of_decide_eq_true hkeep hlive.symm
      rw [ha.live, ha.gen, if_neg hs, if_neg hs]
      exact ⟨hlive, hgen⟩
    · obtain ⟨-, rfl⟩ := ha.mem_fresh (List.mem_append_left _ ht)
      rw [ha.live, ha.gen, if_pos rfl, if_pos rfl]
      refine ⟨?_, rfl⟩
      cases started with
      | nil => cases ht
      | cons t' ts =>
        obtain ⟨-, rfl⟩ := ha.mem_fresh (List.mem_append_left _ List.mem_cons_self)
        rfl
  entry _ s p hsp := by
    rw [ha.live] at hsp
    split_ifs at hsp with hs
    · obtain ⟨t, ht, rfl⟩ := Option.map_eq_some_iff.1 hsp
      have hfresh : t ∈ started ++ failed.filterMap IEvent.thread := List.mem_append_left _ (List.mem_of_mem_head? ht)
      refine ⟨t, ha.tickets.mem_iff.2 (List.mem_append_left _ hfresh), rfl, ?_⟩
      obtain ⟨-, rfl⟩ := ha.mem_fresh hfresh
      exact hs.symm
    · obtain ⟨t, ht, hid, rfl⟩ := h.entry hne s p hsp
      exact ⟨t, ha.tickets.mem_iff.2 (List.mem_append_right _ (h.stays hne ht hs)), hid, rfl⟩
  kept _ pre e' post heq hs hpost := by
    rw [ha.requests] at heq
    refine (ha.tickets.map _).mem_iff.2 ?_
    rw [List.map_append]
    rcases List.eq_nil_or_concat post with rfl | ⟨post, x, rfl⟩
    · obtain ⟨rfl, hlast⟩ := List.append_inj' heq rfl
      cases hlast
      rw [ha.fresh, if_pos hs]
      exact List.mem_append_left _ List.mem_cons_self
    · rw [List.concat_eq_append, ← List.cons_append, ← List.append_assoc] at heq
      obtain ⟨hreq, hlast⟩ := List.append_inj' heq rfl
      cases hlast
      rw [List.concat_eq_append] at hpost
      -- the ticket stays, since the new request is about another source
      obtain ⟨t, ht, hid⟩ := List.mem_map.1 (h.kept hne pre e' post hreq hs fun y hy =>
        hpost y (List.mem_append_left _ hy))
      refine List.mem_append_right _ (List.mem_map.2 ⟨t, h.stays hne ht ?_, hid⟩)
      obtain ⟨pre', e'', post', hreq', hid', hsource, -⟩ := (h.issued t ht).request
      obtain ⟨-, hrest⟩ := List.append_inj (hreq.symm.trans hreq') (hid.symm.trans hid'.symm)
      cases hrest
      rw [← hsource]
      exact (hpost e (List.mem_append_right _ List.mem_cons_self)).symm
  stopped hst := absurd (ha.phase ▸ hst) hne

end

/-! ## Events -/

theorem isCurrent_iff {d : Driver T} {e : IEvent T} {t : Thread} (h : e.thread = some t) :
    d.isCurrent e = true ↔ d.armed.gen t.source = some t.gen := by
  cases e with
  | external o ev => cases h
  | stop => cases h
  | timer k gen id => cases h; exact beq_iff_eq
  | invokeDone i gen v id => cases h; exact beq_iff_eq
  | invokeError i gen v id => cases h; exact beq_iff_eq

theorem resolved_none {d : Driver T} {e : IEvent T} (h : e.thread = none) : d.resolved e = d := by
  cases e with
  | external o ev => rfl
  | stop => rfl
  | timer k gen id => cases h
  | invokeDone i gen v id => cases h
  | invokeError i gen v id => cases h

theorem resolved_some {d : Driver T} {e : IEvent T} {t : Thread} (h : e.thread = some t) :
    (d.resolved e).armed.gen = d.armed.gen ∧
      ∀ s, (d.resolved e).armed.live s = if s = t.source then none else d.armed.live s := by
  cases e with
  | external o ev => cases h
  | stop => cases h
  | timer k gen id => cases h; exact ⟨funext fun s => by cases s <;> rfl, timer_live _ _ _⟩
  | invokeDone i gen v id => cases h; exact ⟨funext fun s => by cases s <;> rfl, invoke_live _ _ _⟩
  | invokeError i gen v id => cases h; exact ⟨funext fun s => by cases s <;> rfl, invoke_live _ _ _⟩

theorem resolved_rest (d : Driver T) (e : IEvent T) : (d.resolved e).threads = d.threads ∧ (d.resolved e).queue = d.queue ∧
    (d.resolved e).handled = d.handled ∧ (d.resolved e).requests = d.requests ∧ (d.resolved e).phase = d.phase ∧
    (d.resolved e).machine = d.machine ∧ (d.resolved e).traces = d.traces ∧ (d.resolved e).accepted = d.accepted ∧
    (d.resolved e).accepting = d.accepting ∧ (d.resolved e).outcome = d.outcome := by
  cases e <;> exact ⟨rfl, rfl, rfl, rfl, rfl, rfl, rfl, rfl, rfl, rfl⟩

variable {q : List (IEvent T)}

/-- An event that is taken moves from the queue to the log. -/
theorem tickets_took {d : Driver T} {e : IEvent T} (hq : d.queue = e :: q) (b : Bool) :
    (({ d with queue := q } : Driver T).log e b).tickets.Perm d.tickets := by
  unfold Driver.tickets
  rw [hq]
  change (d.threads ++ (q.filterMap _ ++ ((d.handled ++ [_]).map _).filterMap _)).Perm _
  refine List.Perm.append_left _ ?_
  rw [List.map_append, List.filterMap_append, List.map_cons, List.map_nil]
  have hsnoc : (e :: q).filterMap IEvent.thread = [e].filterMap IEvent.thread ++ q.filterMap IEvent.thread :=
    @List.filterMap_append _ _ [e] q _
  rw [hsnoc, List.append_assoc]
  exact (List.append_assoc _ _ _ ▸ List.perm_append_comm)

theorem Sound.took {d : Driver T} (h : Sound d) {e : IEvent T} (hq : d.queue = e :: q) (b : Bool) :
    Sound (({ d with queue := q } : Driver T).log e b) :=
  h.congr rfl rfl (fun _ ht => ⟨ht, rfl⟩) (fun _ _ hsp => hsp) Iff.rfl (fun _ => rfl) (tickets_took hq b)

/-- No live thread has the source of a current ticket that is used. -/
theorem Sound.not_live {d : Driver T} (h : Sound d) (hne : d.phase ≠ .stopped) {t t' : Thread} (ht : t ∈ d.threads)
    (ht' : t' ∈ (d.handled.map Handled.event).filterMap IEvent.thread) (hgen : d.armed.gen t'.source = some t'.gen) :
    t.source ≠ t'.source := by
  intro hs
  have hmem : t ∈ d.tickets := List.mem_append_left _ ht
  have hmem' : t' ∈ d.tickets := List.mem_append_right _ (List.mem_append_right _ ht')
  have hg : t.gen = t'.gen := by
    have hlive := (h.live hne t ht).2
    rw [hs, hgen] at hlive
    exact (Option.some.inj hlive).symm
  have hid := (h.issued t hmem).id_eq (h.issued t' hmem') hs hg
  have hnodup := h.nodup
  rw [Driver.tickets, List.map_append, List.nodup_append] at hnodup
  exact hnodup.2.2 _ (List.mem_map_of_mem ht) _ (List.mem_map_of_mem (List.mem_append_right _ ht')) hid

theorem Sound.resolved {d : Driver T} (h : Sound d) (hne : d.phase ≠ .stopped) {e : IEvent T}
    (he : ∀ t, e.thread = some t → t ∈ (d.handled.map Handled.event).filterMap IEvent.thread ∧ d.armed.gen t.source = some t.gen) :
    Sound (d.resolved e) := by
  cases hthread : e.thread with
  | none => rwa [resolved_none hthread]
  | some t =>
    obtain ⟨hmem, hcur⟩ := he t hthread
    obtain ⟨hgen, hlive⟩ := resolved_some (d := d) hthread
    obtain ⟨hthreads, hqueue, hhandled, hreq, hphase, -⟩ := resolved_rest d e
    refine h.congr hreq hgen ?_ ?_ (by rw [hphase]) (fun hst => absurd hst hne) ?_
    · intro t' ht'
      rw [hthreads] at ht'
      rw [hlive, if_neg (h.not_live hne ht' hmem hcur)]
      exact ⟨ht', rfl⟩
    · intro s p hsp
      rw [hlive] at hsp
      split_ifs at hsp
      exact hsp
    · unfold Driver.tickets
      rw [hthreads, hqueue, hhandled]

theorem Sound.stepWith {d : Driver T} (h : Sound d) (hne : d.phase ≠ .stopped) (host : Host T)
    (r : Except (Failure T) (Except StepFault (Stepped T))) : Sound (d.stepWith host r) := by
  rcases r with e | f | s
  · exact h.phase rfl rfl rfl rfl (iff_of_false (fun hst => by cases hst) hne)
  · exact h.phase rfl rfl rfl rfl (iff_of_false (fun hst => by cases hst) hne)
  · exact h.phase rfl rfl rfl rfl (iff_of_false (fun hst => by cases hst) hne)

theorem Driver.dispatch_event (host : Host T) (d : Driver T) (e : IEvent T)
    (r : Except (Failure T) (Except StepFault (Stepped T))) (he : e ≠ .stop) :
    d.dispatch host e r = if d.isCurrent e then ((d.log e true).resolved e).stepWith host r else d.log e false := by
  cases e with
  | stop => exact absurd rfl he
  | external o ev => rfl
  | timer k gen id => rfl
  | invokeDone i gen v id => rfl
  | invokeError i gen v id => rfl

theorem Sound.dispatch {d : Driver T} (h : Sound d) (hw : d.phase = .waiting) {e : IEvent T}
    (hq : d.queue = e :: q) (host : Host T) (r : Except (Failure T) (Except StepFault (Stepped T))) :
    Sound (({ d with queue := q } : Driver T).dispatch host e r) := by
  have hne : d.phase ≠ .stopped := by
    rw [hw]
    intro hst
    cases hst
  by_cases he : e = .stop
  · subst he
    exact (h.took hq true).phase rfl rfl rfl rfl (iff_of_false (fun hst => by cases hst) hne)
  · rw [Driver.dispatch_event _ _ _ _ he]
    split_ifs with hcur
    · have hlog := h.took hq true
      refine Sound.stepWith ?_ (by rw [(resolved_rest _ e).2.2.2.2.1]; exact hne) host r
      refine hlog.resolved hne fun t ht => ⟨?_, (isCurrent_iff ht).1 hcur⟩
      refine List.mem_filterMap.2 ⟨e, ?_, ht⟩
      exact List.mem_map.2 ⟨_, List.mem_append_right _ List.mem_cons_self, rfl⟩
    · exact h.took hq false

/-! ## Runs -/

theorem mem_live {a : Armed} {s : Source} {p : Nat} (h : a.live s = some p) :
    p ∈ a.timers.map Prod.snd ++ a.runs.map fun e => e.2.thread := by
  cases s with
  | timer k => exact List.mem_append_left _ (List.mem_map.2 ⟨(k, p), AssocMap.mem_of_lookup h, rfl⟩)
  | invoke i =>
    obtain ⟨r, hr, rfl⟩ := Option.map_eq_some_iff.1 h
    exact List.mem_append_right _ (List.mem_map.2 ⟨(i, r), AssocMap.mem_of_lookup hr, rfl⟩)

/-- **The release cancels every live thread.** -/
theorem Sound.releaseAll {d : Driver T} (h : Sound d) (hne : d.phase ≠ .stopped) : Sound d.releaseAll := by
  have hthreads : d.releaseAll.threads = [] := by
    refine List.filter_eq_nil_iff.2 fun t ht => ?_
    rw [Bool.not_eq_true', Bool.not_eq_false, List.contains_iff_mem]
    exact mem_live (h.live hne t ht).1
  have hsub : d.releaseAll.tickets.Sublist d.tickets := by
    unfold Driver.tickets
    rw [hthreads]
    exact List.sublist_append_right _ _
  constructor
  · exact fun hst => absurd rfl hst
  · exact fun t ht => h.issued t (hsub.subset ht)
  · exact (hsub.map _).nodup h.nodup
  · exact fun hst => absurd rfl hst
  · exact fun hst => absurd rfl hst
  · exact fun hst => absurd rfl hst
  · exact fun _ => ⟨hthreads, rfl⟩

section
variable {host : Host T} {impl : ChartImpl T} {d d' : Driver T}

/-- **Every move keeps the driver sound.** -/
theorem Sound.move (h : Sound d) (hm : Move host impl d d') : Sound d' := by
  cases hm with
  | fire ht => exact h.result ht rfl
  | resolve ht => exact h.result ht rfl
  | fail ht => exact h.result ht rfl
  | send => exact h.send _ _
  | halt =>
    have hq : Sound (d.enqueue .stop) := h.enqueue rfl
    exact hq.phase rfl rfl rfl rfl Iff.rfl
  | effect hp =>
    have hne : d.phase ≠ .stopped := fun hst => by rw [hp] at hst; cases hst
    obtain ⟨started, failed, ha⟩ := applyEffect_applied host _ d _
    exact (h.applied hne ha).phase rfl rfl rfl rfl (iff_of_false (fun hst => by cases hst) (by rw [ha.phase]; exact hne))
  | deliver hp =>
    have hne : d.phase ≠ .stopped := fun hst => by rw [hp] at hst; cases hst
    rename_i s ss
    have hsend : Sound (d.applySend s) ∧ (d.applySend s).phase = d.phase := by
      unfold Driver.applySend
      cases s.target with
      | toSelf =>
        refine ⟨h.send _ _, ?_⟩
        unfold Driver.send
        split_ifs <;> rfl
      | toChild i => exact ⟨h, rfl⟩
      | toParent => exact ⟨h, rfl⟩
    exact hsend.1.phase rfl rfl rfl rfl (iff_of_false (fun hst => by cases hst) (by rw [hsend.2]; exact hne))
  | commit hp =>
    have hne : d.phase ≠ .stopped := fun hst => by rw [hp] at hst; cases hst
    unfold Driver.committed
    split
    · exact h.phase rfl rfl rfl rfl (iff_of_false (fun hst => by cases hst) hne)
    · exact h.phase rfl rfl rfl rfl (iff_of_false (fun hst => by cases hst) hne)
  | dispatch hw hq _ => exact h.dispatch hw hq host _
  | release hp => exact h.releaseAll fun hst => by rw [hp] at hst; cases hst

/-- **Every reached driver is sound.** -/
theorem sound (h : Reached host impl d) : Sound d := by
  induction h with
  | boot _ => exact sound_boot _
  | move _ hm ih => exact ih.move hm

end

end Wireform.StateMachine
