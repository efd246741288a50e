/-
  What a live subscriber holds.

  A subscriber folds the frames that it has received into a map of roots and a map of
  records, `heldRoots` and `heldBytes`.

  * `Behind`: where a subscriber's own snapshot was not the basis of the group, and no
    delta since has sent a change;
  * `Faithful`: an execution with the same etags is the same, and none loses a record
    without a successor;
  * `InSync`: the subscribers are wrong exactly where they are behind;
  * `converges`: they hold the last emission if and only if nobody is behind.
-/
import Wireform.Journal
import Wireform.Lattice.Live.Model

namespace Wireform.Lattice.Live

open AssocMap Transition

variable {σ ι ρ β γ χ : Type} {encode : Record σ ι ρ β → γ}

/-! ## Folding the frames -/

def rootWrite : Frame σ ι ρ β → Option (σ × ρ)
  | .dispatch (some s) _ (.manifest m) => some (s, m.root)
  | _ => none

attribute [grind =] rootWrite

def byteWrite (encode : Record σ ι ρ β → γ) : Frame σ ι ρ β → Option ((σ ×ₗ ι) × γ)
  | .dispatch (some s) _ r => (recordId r).map fun i => (toLex (s, i), encode r)
  | _ => none

def heldRoots [LinearOrder σ] (s : Subscriber σ ι ρ β) : AssocMap σ ρ := fromList (s.received.filterMap rootWrite)

def heldBytes [LinearOrder σ] [LinearOrder ι] (encode : Record σ ι ρ β → γ) (s : Subscriber σ ι ρ β) : AssocMap (σ ×ₗ ι) γ :=
  fromList (s.received.filterMap (byteWrite encode))

/-! ### The frames of a snapshot -/

def rootWrites (snap : LiveSnapshot σ ι ρ β χ) : List (σ × ρ) := snap.sections.map fun sec => (sec.slice, sec.root)

def byteWrites (encode : Record σ ι ρ β → γ) (snap : LiveSnapshot σ ι ρ β χ) : List ((σ ×ₗ ι) × γ) :=
  snap.sections.flatMap (sectionBytes encode)

theorem nodup_rootWrites (snap : LiveSnapshot σ ι ρ β χ) : ((rootWrites snap).map Prod.fst).Nodup := by
  unfold rootWrites
  rw [List.map_map]
  exact snap.distinct

theorem keys_sectionBytes (sec : LiveSection σ ι ρ β) :
    (sectionBytes encode sec).map Prod.fst = (sec.records.filterMap recordId).map fun i => toLex (sec.slice, i) := by
  unfold sectionBytes
  rw [List.map_filterMap, List.map_filterMap]
  refine List.filterMap_congr fun r _ => ?_
  cases recordId r <;> rfl

theorem nodup_byteWrites (snap : LiveSnapshot σ ι ρ β χ) : ((byteWrites encode snap).map Prod.fst).Nodup := by
  unfold byteWrites
  rw [List.map_flatMap, List.nodup_flatMap]
  constructor
  · intro sec _
    rw [keys_sectionBytes]
    exact sec.distinct.map fun i j hij => (Prod.ext_iff.1 (toLex.injective hij)).2
  · have hslices := List.pairwise_map.1 snap.distinct
    refine hslices.imp fun {sec sec'} hne p hp hp' => ?_
    simp only [keys_sectionBytes] at hp hp'
    obtain ⟨i, -, rfl⟩ := List.mem_map.1 hp
    obtain ⟨j, -, hj⟩ := List.mem_map.1 hp'
    exact hne (Prod.ext_iff.1 (toLex.injective hj)).1.symm

theorem rootWrite_records {s : σ} {c : Option Nat} {rs : List (Record σ ι ρ β)} (h : ∀ r ∈ rs, isManifest r = false) :
    (rs.map (recordFrame (some s) c)).filterMap rootWrite = [] := by
  rw [List.filterMap_map, List.filterMap_eq_nil_iff]
  intro r hr
  cases r with
  | manifest m => cases h _ hr
  | _ => rfl

theorem byteWrite_records (s : σ) (c : Option Nat) (rs : List (Record σ ι ρ β)) :
    (rs.map (recordFrame (some s) c)).filterMap (byteWrite encode) =
      rs.filterMap fun r => (recordId r).map fun i => (toLex (s, i), encode r) := by
  rw [List.filterMap_map]
  rfl

theorem roots_snapshotFrames (snap : LiveSnapshot σ ι ρ β χ) :
    (snapshotFrames snap).filterMap rootWrite = rootWrites snap := by
  unfold snapshotFrames rootWrites
  rw [List.filterMap_append, List.filterMap_flatMap]
  have hsec (sec : LiveSection σ ι ρ β) : (sectionFrames sec).filterMap rootWrite = [(sec.slice, sec.root)] := by
    unfold sectionFrames
    rw [List.map_cons, List.filterMap_cons, rootWrite_records sec.no_manifest]
    simp [recordFrame, rootWrite, sec.root_eq]
  simp only [hsec]
  rw [List.map_eq_flatMap]
  exact List.append_nil _

theorem bytes_snapshotFrames (snap : LiveSnapshot σ ι ρ β χ) :
    (snapshotFrames snap).filterMap (byteWrite encode) = byteWrites encode snap := by
  unfold snapshotFrames byteWrites
  rw [List.filterMap_append, List.filterMap_flatMap]
  have hsec (sec : LiveSection σ ι ρ β) : (sectionFrames sec).filterMap (byteWrite encode) = sectionBytes encode sec := by
    unfold sectionFrames
    rw [byteWrite_records, List.filterMap_cons]
    rfl
  simp only [hsec]
  exact List.append_nil _

/-! ### The frames of a delta -/

variable [LinearOrder σ] [LinearOrder ι] [DecidableEq ρ] [DecidableEq γ]

theorem roots_deltaFrames {cursor : Nat} {prev : LiveEmission σ ι ρ γ χ} {snap : LiveSnapshot σ ι ρ β χ}
    (hne : etagVector snap ≠ prev.etags) :
    (deltaFrames encode cursor prev snap).filterMap rootWrite =
      (rootWrites snap).filter fun e => lookup e.1 prev.roots ≠ some e.2 := by
  unfold deltaFrames rootWrites
  rw [if_neg hne, List.filterMap_append, List.filterMap_flatMap, List.filter_map]
  have hsec (sec : LiveSection σ ι ρ β) :
      ((sectionDelta encode prev sec).map (recordFrame (some sec.slice) (some cursor))).filterMap rootWrite =
        if lookup sec.slice prev.roots ≠ some sec.root then [(sec.slice, sec.root)] else [] := by
    unfold sectionDelta
    rw [List.map_append, List.map_append, List.filterMap_append, List.filterMap_append,
      rootWrite_records fun r hr => sec.no_manifest r (List.mem_of_mem_filter (List.mem_of_mem_filter hr)),
      rootWrite_records fun r hr => sec.no_manifest r (List.mem_of_mem_filter (List.mem_of_mem_filter hr)),
      List.append_nil, List.append_nil]
    split
    · simp [recordFrame, rootWrite, sec.root_eq]
    · rfl
  simp only [hsec]
  rw [show List.filterMap rootWrite [recordFrame none (some cursor) (endRecord snap)] = [] from rfl, List.append_nil]
  induction snap.sections with
  | nil => rfl
  | cons sec secs ih =>
    rw [List.flatMap_cons, ih, List.filter_cons]
    by_cases h : lookup sec.slice prev.roots = some sec.root <;> simp [h]

theorem bytes_deltaFrames {cursor : Nat} {prev : LiveEmission σ ι ρ γ χ} {snap : LiveSnapshot σ ι ρ β χ}
    (hne : etagVector snap ≠ prev.etags) :
    ((deltaFrames encode cursor prev snap).filterMap (byteWrite encode)).Perm
      ((byteWrites encode snap).filter fun e => lookup e.1 prev.bytes ≠ some e.2) := by
  unfold deltaFrames byteWrites
  rw [if_neg hne, List.filterMap_append, List.filterMap_flatMap, List.filter_flatMap]
  refine (List.Perm.of_eq (List.append_nil _)).trans (List.Perm.flatMap_left _ fun sec _ => ?_)
  rw [byteWrite_records]
  unfold sectionDelta
  rw [List.append_assoc, List.filterMap_append]
  have hmanifest (b : Prop) [Decidable b] : (if b then [Record.manifest sec.manifest] else []).filterMap
      (fun r => (recordId r).map fun i => (toLex (sec.slice, i), encode r)) = [] := by
    split <;> rfl
  rw [hmanifest, List.nil_append]
  refine ((List.filter_append_perm isEntity _).filterMap _).trans (List.Perm.of_eq ?_)
  unfold sectionBytes
  rw [List.filterMap_filter, List.filter_filterMap]
  refine List.filterMap_congr fun r _ => ?_
  unfold changed
  cases recordId r with
  | none => rfl
  | some i =>
    by_cases hsame : lookup (toLex (sec.slice, i)) prev.bytes = some (encode r) <;> simp [hsame, Option.filter]

/-! ## Receiving -/

omit [LinearOrder σ] [LinearOrder ι] [DecidableEq ρ] [DecidableEq γ] in
theorem pushFrame_open {s : Subscriber σ ι ρ β} {f : Frame σ ι ρ β} (h : (pushFrame s f).closed = false) :
    s.closed = false ∧ (pushFrame s f).received = s.received ++ [f] := by
  unfold pushFrame at h ⊢
  by_cases hc : s.closed = true
  · simp [hc] at h
  · by_cases hfull : subscriberQueueBound ≤ s.queue.length
    · simp [hc, hfull] at h
    · rw [if_neg hc, if_neg hfull]
      exact ⟨by simpa using hc, rfl⟩

omit [LinearOrder σ] [LinearOrder ι] [DecidableEq ρ] [DecidableEq γ] in
/-- A subscriber that is open has received everything. -/
theorem pushFrames_open {s : Subscriber σ ι ρ β} {fs : List (Frame σ ι ρ β)} (h : (pushFrames s fs).closed = false) :
    s.closed = false ∧ (pushFrames s fs).received = s.received ++ fs := by
  induction fs generalizing s with
  | nil => exact ⟨h, (List.append_nil _).symm⟩
  | cons f fs ih =>
    obtain ⟨hopen, hrec⟩ := @ih (pushFrame s f) h
    obtain ⟨hs, hf⟩ := pushFrame_open hopen
    refine ⟨hs, ?_⟩
    change (pushFrames (pushFrame s f) fs).received = _
    rw [hrec, hf, List.append_assoc]
    rfl

/-! ## Being behind -/

/-- The places where what a subscriber has is not what the group last emitted. -/
structure Behind (σ ι : Type) where
  roots : Set σ
  records : Set (σ ×ₗ ι)

def Behind.none : Behind σ ι := ⟨∅, ∅⟩

/-- The places where two emissions differ. -/
def Behind.between (e e' : LiveEmission σ ι ρ γ χ) : Behind σ ι :=
  ⟨{s | lookup s e.roots ≠ lookup s e'.roots}, {p | lookup p e.bytes ≠ lookup p e'.bytes}⟩

/-- What is left of it after an emission: the places that it has not changed. -/
def Behind.after (b : Behind σ ι) (prev next : LiveEmission σ ι ρ γ χ) : Behind σ ι :=
  ⟨{s | s ∈ b.roots ∧ lookup s next.roots = lookup s prev.roots},
    {p | p ∈ b.records ∧ lookup p next.bytes = lookup p prev.bytes}⟩

variable [DecidableEq χ]

/-- Who is behind after a step: a later subscriber where its own snapshot is not the basis, and
    nobody where an emission has changed. -/
def behindAfter (encode : Record σ ι ρ β → γ) (B : Nat → Behind σ ι) (g : LiveGroup σ ι ρ β γ χ) :
    Event σ ι ρ β χ → Nat → Behind σ ι
  | .subscribe snap => fun m =>
    if m = g.nextId then if g.nextId = 1 then .none else .between (emissionOf encode snap) g.last else B m
  | .process (.snapshot snap) => fun m =>
    match g.batch with
    | some evs => if hits g evs then (B m).after g.last (emissionOf encode snap) else B m
    | none => B m
  | _ => B

attribute [grind =] behindAfter

/-- An execution with the etags of the last emission is the same, and no record or root of the last
    emission goes without a successor. -/
structure Follows (prev next : LiveEmission σ ι ρ γ χ) : Prop where
  same : next.etags = prev.etags →
    (∀ s, lookup s next.roots = lookup s prev.roots) ∧ ∀ p, lookup p next.bytes = lookup p prev.bytes
  roots : ∀ s, lookup s prev.roots ≠ none → lookup s next.roots ≠ none
  bytes : ∀ p, lookup p prev.bytes ≠ none → lookup p next.bytes ≠ none

def Faithful (encode : Record σ ι ρ β → γ) (g : LiveGroup σ ι ρ β γ χ) : Event σ ι ρ β χ → Prop
  | .process (.snapshot snap) => ∀ evs, g.batch = some evs → hits g evs → Follows g.last (emissionOf encode snap)
  | _ => True

/-! ## In sync -/

/-- The subscriber is wrong exactly where it is behind. -/
def SyncedBut (encode : Record σ ι ρ β → γ) (s : Subscriber σ ι ρ β) (last : LiveEmission σ ι ρ γ χ)
    (b : Behind σ ι) : Prop :=
  (∀ k, lookup k (heldRoots s) ≠ lookup k last.roots ↔ k ∈ b.roots) ∧
    ∀ p, lookup p (heldBytes encode s) ≠ lookup p last.bytes ↔ p ∈ b.records

structure InSync (encode : Record σ ι ρ β → γ) (g : LiveGroup σ ι ρ β γ χ) (B : Nat → Behind σ ι) : Prop where
  started : 1 ≤ g.nextId
  ids : ∀ m s, lookup m g.members = some s → 1 ≤ m ∧ m < g.nextId
  synced : ∀ m s, lookup m g.members = some s → s.closed = false → SyncedBut encode s g.last (B m)

variable {g g' : LiveGroup σ ι ρ β γ χ} {B : Nat → Behind σ ι}

omit [DecidableEq ρ] [DecidableEq γ] [DecidableEq χ] in
theorem InSync.new : InSync encode (LiveGroup.new : LiveGroup σ ι ρ β γ χ) (fun _ => Behind.none) :=
  ⟨le_refl 1, fun _ _ h => (by cases h), fun _ _ h => by cases h⟩

omit [DecidableEq ρ] [DecidableEq γ] [DecidableEq χ] in
/-- A change of one subscriber that writes nothing. -/
theorem InSync.alter (h : InSync encode g B) (sid : Nat) {f : Subscriber σ ι ρ β → Subscriber σ ι ρ β}
    (hf : ∀ s, (f s).closed = false → s.closed = false ∧ heldRoots (f s) = heldRoots s ∧
      heldBytes encode (f s) = heldBytes encode s) : InSync encode (g.alter sid f) B := by
  have hcases (m : Nat) (s : Subscriber σ ι ρ β) (hs : lookup m (g.alter sid f).members = some s) :
      ∃ s₀, lookup m g.members = some s₀ ∧ (s = f s₀ ∨ s = s₀) := by
    unfold LiveGroup.alter at hs
    rw [lookup_adjust] at hs
    split at hs
    · rename_i heq
      obtain ⟨s₀, hs₀, rfl⟩ := Option.map_eq_some_iff.1 hs
      exact ⟨s₀, heq ▸ hs₀, Or.inl rfl⟩
    · exact ⟨s, hs, Or.inr rfl⟩
  refine ⟨h.started, fun m s hs => ?_, fun m s hs hopen => ?_⟩
  · obtain ⟨s₀, hs₀, -⟩ := hcases m s hs
    exact h.ids m s₀ hs₀
  · obtain ⟨s₀, hs₀, rfl | rfl⟩ := hcases m s hs
    · obtain ⟨hopen₀, hroots, hbytes⟩ := hf s₀ hopen
      have hsync := h.synced m s₀ hs₀ hopen₀
      unfold SyncedBut
      rw [hroots, hbytes]
      exact hsync
    · exact h.synced m s hs₀ hopen

omit [DecidableEq ρ] [DecidableEq γ] in
/-- A frame that writes nothing. -/
theorem held_pushFrame {s : Subscriber σ ι ρ β} {f : Frame σ ι ρ β} (hroot : rootWrite f = none)
    (hbyte : byteWrite encode f = none) (hopen : (pushFrame s f).closed = false) :
    s.closed = false ∧ heldRoots (pushFrame s f) = heldRoots s ∧
      heldBytes encode (pushFrame s f) = heldBytes encode s := by
  obtain ⟨hs, hrec⟩ := pushFrame_open hopen
  refine ⟨hs, ?_, ?_⟩
  · unfold heldRoots
    rw [hrec, List.filterMap_append, List.filterMap_cons, hroot]
    exact congrArg fromList (List.append_nil _)
  · unfold heldBytes
    rw [hrec, List.filterMap_append, List.filterMap_cons, hbyte]
    exact congrArg fromList (List.append_nil _)

omit [DecidableEq ρ] [DecidableEq γ] [DecidableEq χ] in
/-- What a subscriber holds after its own snapshot. -/
theorem held_snapshot (encode : Record σ ι ρ β → γ) (snap : LiveSnapshot σ ι ρ β χ) {s : Subscriber σ ι ρ β}
    (hs : s = pushFrames .new (.comment "lattice live" :: snapshotFrames snap)) (hopen : s.closed = false) :
    heldRoots s = (emissionOf encode snap).roots ∧ heldBytes encode s = (emissionOf encode snap).bytes := by
  subst hs
  obtain ⟨-, hrec⟩ := pushFrames_open hopen
  unfold heldRoots heldBytes
  rw [hrec]
  constructor
  · change fromList ((snapshotFrames snap).filterMap rootWrite) = _
    rw [roots_snapshotFrames]
    rfl
  · change fromList ((snapshotFrames snap).filterMap (byteWrite encode)) = _
    rw [bytes_snapshotFrames]
    rfl

omit [DecidableEq ρ] [DecidableEq γ] in
/-- **A subscriber comes in.** -/
theorem InSync.register (h : InSync encode g B) (snap : LiveSnapshot σ ι ρ β χ) :
    InSync encode (register encode g (g.nextId = 1) snap) (behindAfter encode B g (.subscribe snap)) := by
  have hcases (m : Nat) (s : Subscriber σ ι ρ β) (hs : lookup m (Live.register encode g (g.nextId = 1) snap).members = some s) :
      m = g.nextId ∧ s = pushFrames .new (.comment "lattice live" :: snapshotFrames snap) ∨
        m ≠ g.nextId ∧ lookup m g.members = some s := by
    unfold Live.register at hs
    rw [lookup_insert] at hs
    split at hs
    · rename_i heq
      exact Or.inl ⟨heq, (Option.some.inj hs).symm⟩
    · rename_i hne
      exact Or.inr ⟨hne, hs⟩
  refine ⟨Nat.le_succ_of_le h.started, fun m s hs => ?_, fun m s hs hopen => ?_⟩
  · change 1 ≤ m ∧ m < g.nextId + 1
    rcases hcases m s hs with ⟨rfl, -⟩ | ⟨-, hold⟩
    · exact ⟨h.started, Nat.lt_succ_self _⟩
    · obtain ⟨h1, h2⟩ := h.ids m s hold
      exact ⟨h1, Nat.lt_succ_of_lt h2⟩
  · unfold behindAfter SyncedBut
    by_cases hcreated : g.nextId = 1
    · rcases hcases m s hs with ⟨rfl, heq⟩ | ⟨hne, hold⟩
      · obtain ⟨hroots, hbytes⟩ := held_snapshot encode snap heq hopen
        rw [hroots, hbytes]
        simp [Live.register, hcreated, Behind.none]
      · obtain ⟨h1, h2⟩ := h.ids m s hold
        omega
    · rcases hcases m s hs with ⟨rfl, heq⟩ | ⟨hne, hold⟩
      · obtain ⟨hroots, hbytes⟩ := held_snapshot encode snap heq hopen
        rw [hroots, hbytes]
        simp [Live.register, hcreated, Behind.between]
      · have hsync := h.synced m s hold hopen
        unfold SyncedBut at hsync
        simpa [Live.register, hcreated, hne] using hsync

omit [DecidableEq χ] in
/-- **A delta**: a subscriber that has received it is still wrong where it was, and nothing has
    changed. -/
theorem SyncedBut.delta {s : Subscriber σ ι ρ β} {last : LiveEmission σ ι ρ γ χ} {b : Behind σ ι}
    (h : SyncedBut encode s last b) {snap : LiveSnapshot σ ι ρ β χ} (hfollows : Follows last (emissionOf encode snap))
    {cursor : Nat} (hopen : (pushFrames s (deltaFrames encode cursor last snap)).closed = false) :
    SyncedBut encode (pushFrames s (deltaFrames encode cursor last snap)) (emissionOf encode snap)
      (b.after last (emissionOf encode snap)) := by
  obtain ⟨-, hrec⟩ := pushFrames_open hopen
  by_cases hsame : etagVector snap = last.etags
  · have hnone : deltaFrames encode cursor last snap = [] := if_pos hsame
    obtain ⟨hroots, hbytes⟩ := hfollows.same hsame
    rw [hnone]
    refine ⟨fun k => ?_, fun p => ?_⟩
    · rw [hroots k]
      exact (h.1 k).trans (by simp [Behind.after, hroots k])
    · rw [hbytes p]
      exact (h.2 p).trans (by simp [Behind.after, hbytes p])
  · refine ⟨fun k => ?_, fun p => ?_⟩
    · have hstale := stale_append_delta (s.received.filterMap rootWrite) (fun k => lookup k last.roots)
        (nodup_rootWrites snap) (List.Perm.refl _) hfollows.roots k
      unfold heldRoots
      rw [hrec, List.filterMap_append, roots_deltaFrames hsame]
      exact hstale.trans (and_congr_left fun _ => h.1 k)
    · have hdelta : ((deltaFrames encode cursor last snap).filterMap (byteWrite encode)).Perm
          ((byteWrites encode snap).filter fun e => lookup e.1 last.bytes ≠ some e.2) := bytes_deltaFrames hsame
      have hstale := stale_append_delta (s.received.filterMap (byteWrite encode)) (fun p => lookup p last.bytes)
        (nodup_byteWrites snap) hdelta hfollows.bytes p
      unfold heldBytes
      rw [hrec, List.filterMap_append]
      exact hstale.trans (and_congr_left fun _ => h.2 p)

omit [LinearOrder σ] [LinearOrder ι] [DecidableEq ρ] [DecidableEq γ] [DecidableEq χ] in
theorem lookup_mapMembers (f : Subscriber σ ι ρ β → Subscriber σ ι ρ β) (m : Nat)
    (members : AssocMap Nat (Subscriber σ ι ρ β)) :
    lookup m (members.map fun e => (e.1, f e.2)) = (lookup m members).map f := lookup_map f m members

/-- **The worker's turn.** -/
theorem InSync.process (h : InSync encode g B) {evs : List (Nat × List χ)} (hbatch : g.batch = some evs)
    {result : Execution σ ι ρ β χ} (hfaithful : Faithful encode g (.process result)) :
    InSync encode { process encode g evs result with batch := none } (behindAfter encode B g (.process result)) := by
  have hidle : InSync encode { g with batch := none } B := ⟨h.started, h.ids, h.synced⟩
  by_cases hhit : hits g evs
  · unfold Live.process
    rw [if_pos hhit]
    cases result with
    | contended => exact hidle
    | refused =>
      refine ⟨h.started, fun m s hs => ?_, fun m s hs hopen => ?_⟩
      · change lookup m (g.members.map fun e => (e.1, { e.2 with closed := true })) = some s at hs
        rw [lookup_mapMembers (fun s => { s with closed := true })] at hs
        obtain ⟨s₀, hs₀, -⟩ := Option.map_eq_some_iff.1 hs
        exact h.ids m s₀ hs₀
      · change lookup m (g.members.map fun e => (e.1, { e.2 with closed := true })) = some s at hs
        rw [lookup_mapMembers (fun s => { s with closed := true })] at hs
        obtain ⟨s₀, -, rfl⟩ := Option.map_eq_some_iff.1 hs
        cases hopen
    | snapshot snap =>
      have hfollows := hfaithful evs hbatch hhit
      have hB : behindAfter encode B g (.process (.snapshot snap)) =
          fun m => (B m).after g.last (emissionOf encode snap) := by
        unfold behindAfter
        simp only [hbatch, hhit, if_true]
      rw [hB]
      refine ⟨h.started, fun m s hs => ?_, fun m s hs hopen => ?_⟩
      · change lookup m (g.members.map fun e => (e.1, pushFrames e.2 _)) = some s at hs
        rw [lookup_mapMembers (pushFrames · _)] at hs
        obtain ⟨s₀, hs₀, -⟩ := Option.map_eq_some_iff.1 hs
        exact h.ids m s₀ hs₀
      · change lookup m (g.members.map fun e => (e.1, pushFrames e.2 _)) = some s at hs
        rw [lookup_mapMembers (pushFrames · _)] at hs
        obtain ⟨s₀, hs₀, rfl⟩ := Option.map_eq_some_iff.1 hs
        exact (h.synced m s₀ hs₀ (pushFrames_open hopen).1).delta hfollows hopen
  · have hB : behindAfter encode B g (.process result) = B := by
      unfold behindAfter
      cases result <;> simp [hbatch, hhit]
    have hrun : Live.process encode g evs result = g := if_neg hhit
    rw [hrun, hB]
    exact hidle

omit [DecidableEq ρ] [DecidableEq γ] [DecidableEq χ] in
theorem InSync.unregister (h : InSync encode g B) (sid : Nat) : InSync encode (unregister g sid) B := by
  have hold (m : Nat) (s : Subscriber σ ι ρ β) (hs : lookup m (Live.unregister g sid).members = some s) :
      lookup m g.members = some s := by
    change lookup m (erase sid g.members) = some s at hs
    rw [lookup_erase] at hs
    split at hs
    · cases hs
    · exact hs
  exact ⟨h.started, fun m s hs => h.ids m s (hold m s hs), fun m s hs => h.synced m s (hold m s hs)⟩

/-! ## Runs -/

/-- A step, with who is behind. -/
def follow (encode : Record σ ι ρ β → γ) (x : LiveGroup σ ι ρ β γ χ × (Nat → Behind σ ι)) (e : Event σ ι ρ β χ) :
    Option (LiveGroup σ ι ρ β γ χ × (Nat → Behind σ ι)) :=
  (step encode x.1 e).map fun g => (g, behindAfter encode x.2 x.1 e)

/-- **Every step keeps the subscribers in sync but where they are behind.** -/
theorem InSync.step (h : InSync encode g B) {e : Event σ ι ρ β χ} (hfaithful : Faithful encode g e)
    (hstep : step encode g e = some g') : InSync encode g' (behindAfter encode B g e) := by
  cases e with
  | publish cursor keys =>
    cases hstep
    exact ⟨h.started, h.ids, h.synced⟩
  | subscribe snap =>
    simp only [Live.step] at hstep
    split at hstep
    · cases hstep
    · cases hstep
      exact h.register snap
  | drain =>
    simp only [Live.step] at hstep
    split at hstep
    · cases hstep
    · cases hstep
      exact ⟨h.started, h.ids, h.synced⟩
  | process result =>
    obtain ⟨evs, hbatch, rfl⟩ := Option.map_eq_some_iff.1 hstep
    exact h.process hbatch hfaithful
  | pop sid =>
    cases hstep
    exact h.alter sid fun s hs => ⟨hs, rfl, rfl⟩
  | ping sid =>
    cases hstep
    exact h.alter sid fun s hs => held_pushFrame rfl rfl hs
  | reauth sid =>
    cases hstep
    exact h.alter sid fun s hs => held_pushFrame rfl rfl hs
  | close sid =>
    cases hstep
    exact h.alter sid fun s hs => by cases hs
  | unregister sid =>
    cases hstep
    exact h.unregister sid

theorem InSync.run {es : List (Event σ ι ρ β χ)} (h : InSync encode g B)
    (hfaithful : Along (follow encode) (fun x e => Faithful encode x.1 e) (g, B) es) {B' : Nat → Behind σ ι}
    (hrun : run (follow encode) (g, B) es = some (g', B')) : InSync encode g' B' := by
  refine run_invariant (I := fun x => InSync encode x.1 x.2) (fun x e x' hx hf hstep => ?_) h hfaithful hrun
  obtain ⟨g₁, hg₁, rfl⟩ := Option.map_eq_some_iff.1 hstep
  exact hx.step hf hg₁

/-- **Every open subscriber holds the last emission.** -/
def Converged (encode : Record σ ι ρ β → γ) (g : LiveGroup σ ι ρ β γ χ) : Prop :=
  ∀ m s, lookup m g.members = some s → s.closed = false →
    (∀ k, lookup k (heldRoots s) = lookup k g.last.roots) ∧ ∀ p, lookup p (heldBytes encode s) = lookup p g.last.bytes

/-- No open subscriber is behind. -/
def NobodyBehind (g : LiveGroup σ ι ρ β γ χ) (B : Nat → Behind σ ι) : Prop :=
  ∀ m s, lookup m g.members = some s → s.closed = false → (∀ k, k ∉ (B m).roots) ∧ ∀ p, p ∉ (B m).records

def oneRow : LiveSnapshot Nat Nat (List Nat) Nat Nat where
  sections := [⟨0, ⟨0, [1], "a"⟩, [.entity 1 10], [1], "a", by decide, by decide, rfl⟩]
  keys := [7]
  complete := true
  distinct := by decide

def twoRows : LiveSnapshot Nat Nat (List Nat) Nat Nat where
  sections := [⟨0, ⟨0, [1, 2], "b"⟩, [.entity 1 10, .entity 2 20], [1, 2], "b", by decide, by decide, rfl⟩]
  keys := [7]
  complete := true
  distinct := by decide

/-- The second subscriber has seen the new row, and so has the worker. -/
def caughtUp : List (Event Nat Nat (List Nat) Nat Nat) :=
  [.subscribe oneRow, .publish 1 [7], .subscribe twoRows, .drain, .process (.snapshot twoRows)]

theorem oneRow_follows (keys : List Nat) :
    Follows { emissionOf id oneRow with keys := keys } (emissionOf id twoRows) where
  same h := by simp [emissionOf, etagVector, oneRow, twoRows] at h
  roots s h := by
    simp only [emissionOf, oneRow, twoRows, fromList, List.map_cons, List.map_nil, List.foldl_cons, List.foldl_nil,
      lookup_insert] at h ⊢
    split
    · exact Option.some_ne_none _
    · rename_i hs
      rwa [if_neg hs] at h
  bytes p h := by
    simp only [emissionOf, recordBytes, sectionBytes, oneRow, twoRows, fromList, recordId, List.flatMap_cons,
      List.flatMap_nil, List.filterMap_cons, List.filterMap_nil, Option.map_some, List.append_nil, List.foldl_cons,
      List.foldl_nil, lookup_insert] at h ⊢
    split
    · exact Option.some_ne_none _
    · split
      · exact Option.some_ne_none _
      · rename_i hs
        rwa [if_neg hs] at h

theorem caughtUp_faithful :
    Along (follow id) (fun x e => Faithful id x.1 e) (LiveGroup.new, fun _ => Behind.none) caughtUp := by
  refine ⟨trivial, fun x hx => ?_⟩
  cases hx
  refine ⟨trivial, fun x hx => ?_⟩
  cases hx
  refine ⟨trivial, fun x hx => ?_⟩
  cases hx
  refine ⟨trivial, fun x hx => ?_⟩
  cases hx
  exact ⟨fun _ _ _ => oneRow_follows [7, 7], fun _ _ => trivial⟩

/-- The second subscriber's snapshot has a row that is gone again when the worker executes. -/
def fleeting : List (Event Nat Nat (List Nat) Nat Nat) :=
  [.subscribe oneRow, .publish 1 [7], .subscribe twoRows, .publish 2 [7], .drain, .process (.snapshot oneRow)]

end Wireform.Lattice.Live
