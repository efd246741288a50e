/-
  Incremental reconciliation (`Kafka.Streams.Runtime.RebalanceProtocol`).

  The coordinator has a target for each member, and what each member owns.  The
  reconciliation of a member lists what it should release, and what it should pick up
  of the tasks nobody else owns; it reaches the coordinator's state when the member
  has acted on it, perhaps late.

  * `step_reconciled`: one step, with `Guarded` for what the code does not look after:
    an answer of an earlier epoch, and what a new member claims to own;
  * `single_owner`: over a run no task has two owners, and with a fixed target the
    members reach it;
  * `late_answer`: an answer of an earlier epoch gives a task a second owner.
-/
import Mathlib.Data.Finset.Basic
import Mathlib.Data.String.Basic
import Wireform.AssocMap
import Wireform.Transition

namespace Wireform.Kafka.Streams

open Transition

structure TaskId where
  taskSubtopology : Int
  taskPartition : Int32
  deriving DecidableEq, Repr

abbrev MemberId := String

abbrev MemberEpoch := Int

abbrev RebalanceEpoch := Int

/-- What a member sends on a heartbeat. -/
structure Subscription where
  currentlyOwned : Finset TaskId
  memberEpoch : MemberEpoch
  deriving DecidableEq

/-- What each member should own. -/
abbrev TargetAssignment := AssocMap MemberId (Finset TaskId)

/-- What each member owns. -/
abbrev OwnedAssignment := AssocMap MemberId (Finset TaskId)

structure GroupState where
  gsMembers : AssocMap MemberId Subscription
  gsTarget : TargetAssignment
  gsOwned : OwnedAssignment
  gsEpoch : RebalanceEpoch
  deriving DecidableEq

def initialGroupState : GroupState where
  gsMembers := []
  gsTarget := []
  gsOwned := []
  gsEpoch := 0

/-- The tasks a member should add to its own, and those it should release. -/
structure Reconciliation where
  rAdd : Finset TaskId
  rRemove : Finset TaskId
  deriving DecidableEq

/-- `findWithDefault Set.empty`. -/
def tasksOf (m : MemberId) (a : AssocMap MemberId (Finset TaskId)) : Finset TaskId := (AssocMap.lookup m a).getD ∅

/-- Another member owns the task. -/
def blocked (owned : OwnedAssignment) (m : MemberId) (t : TaskId) : Bool := owned.any fun e => m ≠ e.1 ∧ t ∈ e.2

def perMember (gs : GroupState) (m : MemberId) : Reconciliation :=
  let own := tasksOf m gs.gsOwned
  let tgt := tasksOf m gs.gsTarget
  { rAdd := (tgt \ own).filter fun t => ¬ blocked gs.gsOwned m t
    rRemove := own \ tgt }

def allMembers (gs : GroupState) : List MemberId := gs.gsOwned.map Prod.fst ++ gs.gsTarget.map Prod.fst

/-- The reconciliation of every member. -/
def reconcile (gs : GroupState) : AssocMap MemberId Reconciliation :=
  AssocMap.fromList ((allMembers gs).map fun m => (m, perMember gs m))

/-- The member has released what it should, and picked up the rest. -/
def applyReconciliation (mid : MemberId) (r : Reconciliation) (gs : GroupState) : GroupState :=
  { gs with
    gsOwned := AssocMap.insert mid (tasksOf mid gs.gsOwned \ r.rRemove ∪ r.rAdd) gs.gsOwned
    gsMembers := AssocMap.adjust (fun s => { s with memberEpoch := s.memberEpoch + 1 }) mid gs.gsMembers }

def bumpEpoch (gs : GroupState) : GroupState := { gs with gsEpoch := gs.gsEpoch + 1 }

/-- A member joins; what it claims to own counts if it is not known yet. -/
def addMember (mid : MemberId) (sub : Subscription) (gs : GroupState) : GroupState :=
  bumpEpoch { gs with
    gsMembers := AssocMap.insert mid sub gs.gsMembers
    gsOwned := AssocMap.insert mid ((AssocMap.lookup mid gs.gsOwned).getD sub.currentlyOwned) gs.gsOwned }

def removeMember (mid : MemberId) (gs : GroupState) : GroupState :=
  bumpEpoch { gs with
    gsMembers := gs.gsMembers.filter fun e => e.1 ≠ mid
    gsOwned := gs.gsOwned.filter fun e => e.1 ≠ mid
    gsTarget := gs.gsTarget.filter fun e => e.1 ≠ mid }

def updateTarget (tgt : TargetAssignment) (gs : GroupState) : GroupState := bumpEpoch { gs with gsTarget := tgt }

/-! ## Runs -/

/-- A reconciliation that was computed for a member, and the epoch it was computed in. -/
structure Answer where
  member : MemberId
  reconciliation : Reconciliation
  epoch : RebalanceEpoch
  deriving DecidableEq

structure Group where
  state : GroupState
  answers : List Answer

def Group.init : Group := ⟨initialGroupState, []⟩

inductive Event where
  | addMember (mid : MemberId) (sub : Subscription)
  | removeMember (mid : MemberId)
  | updateTarget (tgt : TargetAssignment)
  /-- The heartbeat of a member is answered. -/
  | answer (mid : MemberId)
  /-- The member has acted on an answer. -/
  | apply (k : Nat)

def step (g : Group) : Event → Option Group
  | .addMember mid sub => some { g with state := addMember mid sub g.state }
  | .removeMember mid => some { g with state := removeMember mid g.state }
  | .updateTarget tgt => some { g with state := updateTarget tgt g.state }
  | .answer mid =>
    (AssocMap.lookup mid (reconcile g.state)).map fun r =>
      { g with answers := g.answers ++ [⟨mid, r, g.state.gsEpoch⟩] }
  | .apply k =>
    g.answers[k]?.map fun a => { g with state := applyReconciliation a.member a.reconciliation g.state }

/-! ## Owners -/

variable {gs : GroupState} {g g' : Group} {m m' : MemberId} {t : TaskId} {r : Reconciliation}

/-- No task is with two members. -/
def SingleOwner (a : AssocMap MemberId (Finset TaskId)) : Prop :=
  ∀ t m m', t ∈ tasksOf m a → t ∈ tasksOf m' a → m = m'

theorem tasksOf_insert (m k : MemberId) (v : Finset TaskId) (a : AssocMap MemberId (Finset TaskId)) :
    tasksOf m (AssocMap.insert k v a) = if m = k then v else tasksOf m a := by
  unfold tasksOf
  rw [AssocMap.lookup_insert]
  split_ifs
  · rfl
  · rfl

theorem tasksOf_filter (m k : MemberId) (a : AssocMap MemberId (Finset TaskId)) :
    tasksOf m (a.filter fun e => e.1 ≠ k) = if m = k then ∅ else tasksOf m a := by
  unfold tasksOf
  rw [AssocMap.lookup_filter_ne]
  split_ifs
  · rfl
  · rfl

theorem not_mem_of_not_blocked {owned : OwnedAssignment} (h : ¬ blocked owned m t) (hne : m' ≠ m) :
    t ∉ tasksOf m' owned := by
  intro ht
  unfold tasksOf at ht
  cases hl : AssocMap.lookup m' owned with
  | none =>
    rw [hl] at ht
    cases ht
  | some ts =>
    rw [hl] at ht
    exact h (List.any_eq_true.2 ⟨(m', ts), AssocMap.mem_of_lookup hl, decide_eq_true ⟨hne.symm, ht⟩⟩)

theorem mem_perMember_add : t ∈ (perMember gs m).rAdd ↔
    (t ∈ tasksOf m gs.gsTarget ∧ t ∉ tasksOf m gs.gsOwned) ∧ ¬ blocked gs.gsOwned m t := by
  unfold perMember
  rw [Finset.mem_filter, Finset.mem_sdiff]

/-- The answer for a member is what `perMember` says. -/
theorem lookup_reconcile (h : AssocMap.lookup m (reconcile gs) = some r) : r = perMember gs m := by
  obtain ⟨k, -, he⟩ := List.mem_map.1 (AssocMap.mem_of_lookup_fromList h)
  cases he
  rfl

theorem tasksOf_apply (m k : MemberId) (r : Reconciliation) (gs : GroupState) :
    tasksOf m (applyReconciliation k r gs).gsOwned =
      if m = k then tasksOf k gs.gsOwned \ r.rRemove ∪ r.rAdd else tasksOf m gs.gsOwned :=
  tasksOf_insert m k _ gs.gsOwned

/-- What the code does not look after: the tasks that a new member claims to own, and an
    answer that is late and adds a task the current reconciliation would not. -/
def Guarded (g : Group) : Event → Prop
  | .addMember mid sub => AssocMap.lookup mid g.state.gsOwned = none →
    ∀ e ∈ g.state.gsOwned, Disjoint sub.currentlyOwned e.2
  | .apply k => ∀ a ∈ g.answers[k]?, a.epoch = g.state.gsEpoch ∨
    a.reconciliation.rAdd ⊆ tasksOf a.member g.state.gsOwned ∪ (perMember g.state a.member).rAdd
  | _ => True

/-- A target gives each task to one member. -/
def Event.PerTask : Event → Prop
  | .updateTarget tgt => SingleOwner tgt
  | _ => True

/-- The tasks have single owners and targets, and the answers of the current epoch add
    tasks of the target that nobody else owns. -/
structure Reconciled (g : Group) : Prop where
  owned : SingleOwner g.state.gsOwned
  target : SingleOwner g.state.gsTarget
  past : ∀ a ∈ g.answers, a.epoch ≤ g.state.gsEpoch
  current : ∀ a ∈ g.answers, a.epoch = g.state.gsEpoch → ∀ t ∈ a.reconciliation.rAdd,
    t ∈ tasksOf a.member g.state.gsTarget ∧ ∀ m, m ≠ a.member → t ∉ tasksOf m g.state.gsOwned

/-- In a new epoch no answer is current. -/
theorem Reconciled.bump (h : Reconciled g) (he : gs.gsEpoch = g.state.gsEpoch) (ho : SingleOwner gs.gsOwned)
    (ht : SingleOwner gs.gsTarget) : Reconciled ⟨bumpEpoch gs, g.answers⟩ := by
  have hlt : ∀ a ∈ g.answers, a.epoch < (bumpEpoch gs).gsEpoch := by
    intro a ha
    have hle := h.past a ha
    rw [← he] at hle
    exact Int.lt_add_one_iff.2 hle
  exact ⟨ho, ht, fun a ha => (hlt a ha).le, fun a ha hcur => absurd hcur (hlt a ha).ne⟩

theorem SingleOwner.update {a : OwnedAssignment} {v : Finset TaskId} (h : SingleOwner a)
    (hv : ∀ t ∈ v, ∀ m', m' ≠ m → t ∉ tasksOf m' a) : SingleOwner (AssocMap.insert m v a) := by
  intro t m₁ m₂ h₁ h₂
  rw [tasksOf_insert] at h₁ h₂
  split_ifs at h₁ h₂ with e₁ e₂
  · rw [e₁, e₂]
  · exact absurd h₂ (hv t h₁ m₂ e₂)
  · rename_i e₂
    exact absurd h₁ (hv t h₂ m₁ e₁)
  · exact h t m₁ m₂ h₁ h₂

theorem SingleOwner.filter {a : OwnedAssignment} (h : SingleOwner a) (k : MemberId) :
    SingleOwner (a.filter fun e => e.1 ≠ k) := by
  intro t m₁ m₂ h₁ h₂
  rw [tasksOf_filter] at h₁ h₂
  split_ifs at h₁ h₂ with e₁ e₂
  · cases h₁
  · cases h₁
  · cases h₂
  · exact h t m₁ m₂ h₁ h₂

/-! ## One step -/

theorem Reconciled.apply {a : Answer} (h : Reconciled g) (ha : a ∈ g.answers)
    (hg : a.epoch = g.state.gsEpoch ∨
      a.reconciliation.rAdd ⊆ tasksOf a.member g.state.gsOwned ∪ (perMember g.state a.member).rAdd) :
    Reconciled { g with state := applyReconciliation a.member a.reconciliation g.state } := by
  -- what the member adds is its own already, or of its target and nobody else's
  have hadd : ∀ t ∈ a.reconciliation.rAdd, (t ∈ tasksOf a.member g.state.gsOwned ∨
      t ∈ tasksOf a.member g.state.gsTarget) ∧ ∀ m, m ≠ a.member → t ∉ tasksOf m g.state.gsOwned := by
    intro t ht
    rcases hg with hcur | hsub
    · exact (h.current a ha hcur t ht).imp_left Or.inr
    · rcases Finset.mem_union.1 (hsub ht) with hown | hnew
      · exact ⟨Or.inl hown, fun m hne hm => hne (h.owned t m a.member hm hown)⟩
      · obtain ⟨⟨htgt, -⟩, hnot⟩ := mem_perMember_add.1 hnew
        exact ⟨Or.inr htgt, fun m hne => not_mem_of_not_blocked hnot hne⟩
  refine ⟨h.owned.update fun t ht m hne hm => ?_, h.target, h.past, fun b hb hcur t ht => ?_⟩
  · rcases Finset.mem_union.1 ht with ht | ht
    · exact hne (h.owned t m a.member hm (Finset.mem_sdiff.1 ht).1)
    · exact (hadd t ht).2 m hne hm
  · obtain ⟨htgt, hfree⟩ := h.current b hb hcur t ht
    refine ⟨htgt, fun m hne hm => ?_⟩
    rw [tasksOf_apply] at hm
    split_ifs at hm with he
    · have hne' : a.member ≠ b.member := he ▸ hne
      rcases Finset.mem_union.1 hm with hm | hm
      · exact hfree a.member hne' (Finset.mem_sdiff.1 hm).1
      · rcases (hadd t hm).1 with hown | htgt'
        · exact hfree a.member hne' hown
        · exact hne' (h.target t _ _ htgt' htgt)
    · exact hfree m hne hm

/-- **A step keeps single owners**, if it is guarded. -/
theorem step_reconciled {e : Event} (h : Reconciled g) (hg : Guarded g e) (ht : e.PerTask) (hstep : step g e = some g') :
    Reconciled g' := by
  cases e with
  | addMember mid sub =>
    cases hstep
    refine h.bump rfl (h.owned.update fun t hin m hne hm => ?_) h.target
    cases hl : AssocMap.lookup mid g.state.gsOwned with
    | none =>
      rw [hl] at hin
      unfold tasksOf at hm
      cases hl' : AssocMap.lookup m g.state.gsOwned with
      | none =>
        rw [hl'] at hm
        cases hm
      | some ts =>
        rw [hl'] at hm
        exact Finset.disjoint_left.1 (hg hl (m, ts) (AssocMap.mem_of_lookup hl')) hin hm
    | some ts =>
      refine hne (h.owned t m mid hm ?_)
      unfold tasksOf
      rw [hl]
      rw [hl] at hin
      exact hin
  | removeMember mid =>
    cases hstep
    exact h.bump rfl (h.owned.filter mid) (h.target.filter mid)
  | updateTarget tgt =>
    cases hstep
    exact h.bump rfl h.owned ht
  | answer mid =>
    obtain ⟨r, hr, rfl⟩ := Option.map_eq_some_iff.1 hstep
    refine ⟨h.owned, h.target, fun a ha => ?_, fun a ha hcur t hadd => ?_⟩
    · rcases List.mem_append.1 ha with ha | ha
      · exact h.past a ha
      · rw [List.mem_singleton.1 ha]
    · rcases List.mem_append.1 ha with ha | ha
      · exact h.current a ha hcur t hadd
      · rw [List.mem_singleton.1 ha] at hadd ⊢
        rw [lookup_reconcile hr] at hadd
        obtain ⟨⟨htgt, -⟩, hnot⟩ := mem_perMember_add.1 hadd
        exact ⟨htgt, fun m hne => not_mem_of_not_blocked hnot hne⟩
  | apply k =>
    obtain ⟨a, ha, rfl⟩ := Option.map_eq_some_iff.1 hstep
    exact h.apply (List.mem_of_getElem? ha) (hg a ha)

theorem init_reconciled : Reconciled Group.init := by
  refine ⟨fun t m m' h => ?_, fun t m m' h => ?_, fun a ha => ?_, fun a ha => ?_⟩
  · cases h
  · cases h
  · cases ha
  · cases ha

/-! ## Reaching the target -/

/-- The current reconciliation of a member, acted on. -/
def reconcileOne (gs : GroupState) (m : MemberId) : GroupState :=
  match AssocMap.lookup m (reconcile gs) with
  | some r => applyReconciliation m r gs
  | none => gs

attribute [grind =] reconcileOne

/-- The reconciliations of one answer to all, acted on. -/
def reconcileAll (gs : GroupState) : GroupState :=
  (reconcile gs).foldl (fun gs' e => applyReconciliation e.1 e.2 gs') gs

/-- What a member owns after its reconciliation. -/
def settled (gs : GroupState) (m : MemberId) : Finset TaskId :=
  tasksOf m gs.gsOwned \ (perMember gs m).rRemove ∪ (perMember gs m).rAdd

/-- The members reach the target, one after the other or all at a time: once they have
    released, and once more. -/
def Settles (gs : GroupState) : Prop :=
  (∀ xs ys : List MemberId, (∀ m ∈ allMembers gs, m ∈ xs) → (∀ m ∈ allMembers gs, m ∈ ys) → ∀ m,
      tasksOf m ((xs ++ ys).foldl reconcileOne gs).gsOwned = tasksOf m gs.gsTarget) ∧
    ∀ n m, tasksOf m (reconcileAll^[n + 2] gs).gsOwned = tasksOf m gs.gsTarget

theorem mem_settled : t ∈ settled gs m ↔ t ∈ tasksOf m gs.gsTarget ∧
    (t ∈ tasksOf m gs.gsOwned ∨ ¬ blocked gs.gsOwned m t) := by
  unfold settled
  rw [Finset.mem_union, mem_perMember_add]
  unfold perMember
  rw [Finset.mem_sdiff, Finset.mem_sdiff]
  tauto

theorem tasksOf_of_not_mem (h : m ∉ allMembers gs) : tasksOf m gs.gsOwned = ∅ ∧ tasksOf m gs.gsTarget = ∅ := by
  unfold allMembers at h
  rw [List.mem_append, not_or] at h
  unfold tasksOf
  rw [AssocMap.lookup_eq_none h.1, AssocMap.lookup_eq_none h.2]
  exact ⟨rfl, rfl⟩

theorem settled_of_not_mem (h : m ∉ allMembers gs) : settled gs m = tasksOf m gs.gsOwned := by
  obtain ⟨hown, htgt⟩ := tasksOf_of_not_mem h
  ext t
  rw [mem_settled, hown, htgt]
  simp

theorem lookup_reconcile_of_mem (h : m ∈ allMembers gs) : AssocMap.lookup m (reconcile gs) = some (perMember gs m) := by
  have hkey : m ∈ ((allMembers gs).map fun m => (m, perMember gs m)).map Prod.fst := by
    rw [List.map_map]
    exact List.mem_map.2 ⟨m, h, rfl⟩
  obtain ⟨r, hr⟩ := AssocMap.exists_lookup_fromList hkey
  rw [← lookup_reconcile hr]
  exact hr

theorem lookup_reconcile_of_not_mem (h : m ∉ allMembers gs) : AssocMap.lookup m (reconcile gs) = none := by
  cases hl : AssocMap.lookup m (reconcile gs) with
  | none => rfl
  | some r =>
    obtain ⟨k, hk, he⟩ := List.mem_map.1 (AssocMap.mem_of_lookup_fromList hl)
    cases he
    exact absurd hk h

theorem tasksOf_reconcileOne (gs : GroupState) (k m : MemberId) :
    tasksOf m (reconcileOne gs k).gsOwned = if m = k then settled gs k else tasksOf m gs.gsOwned := by
  unfold reconcileOne
  by_cases hk : k ∈ allMembers gs
  · rw [lookup_reconcile_of_mem hk]
    exact tasksOf_apply m k _ gs
  · rw [lookup_reconcile_of_not_mem hk]
    split_ifs with he
    · rw [he, settled_of_not_mem hk]
    · rfl

theorem reconcileOne_target (gs : GroupState) (k : MemberId) : (reconcileOne gs k).gsTarget = gs.gsTarget := by
  unfold reconcileOne
  split
  · rfl
  · rfl

theorem tasksOf_foldl_apply {es : AssocMap MemberId Reconciliation} (h : AssocMap.Ascending es) :
    ∀ gs : GroupState, tasksOf m (es.foldl (fun gs' e => applyReconciliation e.1 e.2 gs') gs).gsOwned =
      (AssocMap.lookup m es).elim (tasksOf m gs.gsOwned) fun r => tasksOf m gs.gsOwned \ r.rRemove ∪ r.rAdd := by
  induction es with
  | nil => exact fun gs => rfl
  | cons e es ih =>
    intro gs
    obtain ⟨hlt, hes⟩ := List.pairwise_cons.1 h
    rw [List.foldl_cons, ih hes, tasksOf_apply, AssocMap.lookup]
    split_ifs with he
    · have hnone : AssocMap.lookup m es = none := by
        refine AssocMap.lookup_eq_none fun hin => ?_
        obtain ⟨e', he', hkey⟩ := List.mem_map.1 hin
        have hlt' := hlt e' he'
        rw [hkey, he] at hlt'
        exact lt_irrefl _ hlt'
      rw [hnone, he]
      rfl
    · rfl

theorem tasksOf_reconcileAll (gs : GroupState) (m : MemberId) :
    tasksOf m (reconcileAll gs).gsOwned = settled gs m := by
  have hasc : AssocMap.Ascending (reconcile gs) := AssocMap.ascending_fromList _
  unfold reconcileAll
  rw [tasksOf_foldl_apply hasc]
  by_cases hm : m ∈ allMembers gs
  · rw [lookup_reconcile_of_mem hm]
    rfl
  · rw [lookup_reconcile_of_not_mem hm]
    exact (settled_of_not_mem hm).symm

/-- The state's map is in order, and its target gives each task to one member. -/
structure Proper (gs : GroupState) : Prop where
  ascending : AssocMap.Ascending gs.gsOwned
  target : SingleOwner gs.gsTarget

theorem Proper.apply (h : Proper gs) (m : MemberId) (r : Reconciliation) : Proper (applyReconciliation m r gs) :=
  ⟨h.ascending.insert m _, h.target⟩

theorem Proper.reconcileOne (h : Proper gs) (m : MemberId) : Proper (reconcileOne gs m) := by
  unfold Streams.reconcileOne
  split
  · exact h.apply m _
  · exact h

theorem foldl_apply_proper : ∀ (es : AssocMap MemberId Reconciliation) {gs : GroupState}, Proper gs →
    Proper (es.foldl (fun gs' e => applyReconciliation e.1 e.2 gs') gs) ∧
      (es.foldl (fun gs' e => applyReconciliation e.1 e.2 gs') gs).gsTarget = gs.gsTarget
  | [], _, h => ⟨h, rfl⟩
  | e :: es, _, h => foldl_apply_proper es (h.apply e.1 e.2)

theorem exists_of_blocked (h : Proper gs) (hb : blocked gs.gsOwned m t = true) :
    ∃ m', m' ≠ m ∧ t ∈ tasksOf m' gs.gsOwned := by
  obtain ⟨e, he, hne⟩ := List.any_eq_true.1 hb
  obtain ⟨hm, ht⟩ := of_decide_eq_true hne
  refine ⟨e.1, hm.symm, ?_⟩
  unfold tasksOf
  rw [(h.ascending.mem_iff e.1 e.2).1 he]
  exact ht

/-- A member owns nothing outside its target. -/
def Within (gs : GroupState) (m : MemberId) : Prop := tasksOf m gs.gsOwned ⊆ tasksOf m gs.gsTarget

theorem settled_subset (gs : GroupState) (m : MemberId) : settled gs m ⊆ tasksOf m gs.gsTarget :=
  fun _ ht => (mem_settled.1 ht).1

/-- Once all members have released, each gets its target. -/
theorem settled_eq (h : Proper gs) (hw : ∀ m, Within gs m) (m : MemberId) : settled gs m = tasksOf m gs.gsTarget := by
  refine Finset.Subset.antisymm (settled_subset gs m) fun t ht => mem_settled.2 ⟨ht, Or.inr fun hb => ?_⟩
  obtain ⟨m', hne, hm'⟩ := exists_of_blocked h hb
  exact hne (h.target t m' m (hw m' hm') ht)

theorem foldl_target : ∀ (xs : List MemberId) (gs : GroupState), (xs.foldl reconcileOne gs).gsTarget = gs.gsTarget
  | [], _ => rfl
  | k :: xs, gs => (foldl_target xs _).trans (reconcileOne_target gs k)

theorem foldl_proper : ∀ (xs : List MemberId) {gs : GroupState}, Proper gs → Proper (xs.foldl reconcileOne gs)
  | [], _, h => h
  | k :: xs, _, h => foldl_proper xs (h.reconcileOne k)

/-- The members of the list release what is not theirs. -/
theorem foldl_within : ∀ (xs : List MemberId) (gs : GroupState) (m : MemberId), m ∈ xs ∨ Within gs m →
    Within (xs.foldl reconcileOne gs) m
  | [], gs, m, h => h.resolve_left List.not_mem_nil
  | k :: xs, gs, m, h => by
    refine foldl_within xs _ m ?_
    by_cases hk : m = k
    · right
      unfold Within
      rw [tasksOf_reconcileOne, if_pos hk, reconcileOne_target, hk]
      exact settled_subset gs k
    · rcases h with h | h
      · exact Or.inl ((List.mem_cons.1 h).resolve_left hk)
      · right
        unfold Within
        rw [tasksOf_reconcileOne, if_neg hk, reconcileOne_target]
        exact h

/-- Then those of the list reach their target. -/
theorem foldl_settled : ∀ (ys : List MemberId) {gs : GroupState} (m : MemberId), Proper gs → (∀ m, Within gs m) →
    m ∈ ys ∨ tasksOf m gs.gsOwned = tasksOf m gs.gsTarget →
      tasksOf m (ys.foldl reconcileOne gs).gsOwned = tasksOf m gs.gsTarget
  | [], _, m, _, _, hm => hm.resolve_left List.not_mem_nil
  | k :: ys, gs, m, h, hw, hm => by
    have hw' : ∀ m, Within (reconcileOne gs k) m := fun m => foldl_within [k] gs m (Or.inr (hw m))
    rw [← reconcileOne_target gs k]
    refine foldl_settled ys m (h.reconcileOne k) hw' ?_
    rw [tasksOf_reconcileOne, reconcileOne_target]
    by_cases hk : m = k
    · rw [if_pos hk, hk]
      exact Or.inr (settled_eq h hw k)
    · rw [if_neg hk]
      exact hm.imp_left fun hm => (List.mem_cons.1 hm).resolve_left hk

theorem reconcileAll_proper (h : Proper gs) : Proper (reconcileAll gs) ∧ (reconcileAll gs).gsTarget = gs.gsTarget :=
  foldl_apply_proper (reconcile gs) h

/-- **With a fixed target the members reach it.** -/
theorem settles (h : Proper gs) : Settles gs := by
  constructor
  · intro xs ys hxs hys m
    have hknown : ∀ m, m ∈ xs ∨ Within gs m := by
      intro m
      by_cases hm : m ∈ allMembers gs
      · exact Or.inl (hxs m hm)
      · right
        unfold Within
        rw [(tasksOf_of_not_mem hm).1]
        exact Finset.empty_subset _
    rw [List.foldl_append, ← foldl_target xs gs]
    refine foldl_settled ys m (foldl_proper xs h) (fun m => foldl_within xs gs m (hknown m)) ?_
    by_cases hm : m ∈ allMembers gs
    · exact Or.inl (hys m hm)
    · right
      have hw := foldl_within xs gs m (hknown m)
      unfold Within at hw
      rw [foldl_target, (tasksOf_of_not_mem hm).2] at hw ⊢
      exact Finset.subset_empty.1 hw
  · intro n m
    have hround : ∀ n, Proper (reconcileAll^[n] gs) ∧ (reconcileAll^[n] gs).gsTarget = gs.gsTarget := by
      intro n
      induction n with
      | zero => exact ⟨h, rfl⟩
      | succ n ih =>
        rw [Function.iterate_succ_apply']
        exact ⟨(reconcileAll_proper ih.1).1, (reconcileAll_proper ih.1).2.trans ih.2⟩
    obtain ⟨hp, htgt⟩ := hround (n + 1)
    have hw : ∀ m, Within (reconcileAll^[n + 1] gs) m := by
      intro m
      unfold Within
      rw [htgt, Function.iterate_succ_apply', tasksOf_reconcileAll, ← (hround n).2]
      exact settled_subset _ m
    rw [Function.iterate_succ_apply', tasksOf_reconcileAll, settled_eq hp hw, htgt]

theorem step_proper {e : Event} (h : Proper g.state) (ht : e.PerTask) (hstep : step g e = some g') : Proper g'.state := by
  cases e with
  | addMember mid sub =>
    cases hstep
    exact ⟨h.ascending.insert mid _, h.target⟩
  | removeMember mid =>
    cases hstep
    exact ⟨h.ascending.filter _, h.target.filter mid⟩
  | updateTarget tgt =>
    cases hstep
    exact ⟨h.ascending, ht⟩
  | answer mid =>
    obtain ⟨r, -, rfl⟩ := Option.map_eq_some_iff.1 hstep
    exact h
  | apply k =>
    obtain ⟨a, -, rfl⟩ := Option.map_eq_some_iff.1 hstep
    exact h.apply a.member a.reconciliation

/-! ## Runs -/

/-- **Single ownership**, in every run whose steps are guarded; and from there the
    members reach the target. -/
theorem single_owner {es : List Event} (hrun : run step Group.init es = some g) (ht : ∀ e ∈ es, e.PerTask)
    (hg : Along step Guarded Group.init es) : SingleOwner g.state.gsOwned ∧ Settles g.state := by
  have hper : Along step (fun _ e => e.PerTask) Group.init es := along_of_events (fun e he _ => ht e he) _
  have hrec := run_invariant (I := Reconciled) (fun _ e _ h hP hs => step_reconciled h hP.1 hP.2 hs)
    init_reconciled (hg.and hper) hrun
  have hinit : Proper Group.init.state := ⟨List.Pairwise.nil, init_reconciled.target⟩
  have hproper := run_invariant (I := fun g => Proper g.state) (fun _ e _ h hP hs => step_proper h hP hs)
    hinit hper hrun
  exact ⟨hrec.owned, settles hproper⟩

instance : ∀ e : Event, Decidable (Guarded g e)
  | .addMember mid sub => inferInstanceAs (Decidable (AssocMap.lookup mid g.state.gsOwned = none →
      ∀ e ∈ g.state.gsOwned, Disjoint sub.currentlyOwned e.2))
  | .apply k => inferInstanceAs (Decidable (∀ a ∈ g.answers[k]?, a.epoch = g.state.gsEpoch ∨
      a.reconciliation.rAdd ⊆ tasksOf a.member g.state.gsOwned ∪ (perMember g.state a.member).rAdd))
  | .removeMember _ | .updateTarget _ | .answer _ => isTrue trivial

theorem singleOwner_one (m : MemberId) (ts : Finset TaskId) : SingleOwner [(m, ts)] := by
  have hone : ∀ {t k}, t ∈ tasksOf k [(m, ts)] → k = m := by
    intro t k ht
    by_contra hne
    unfold tasksOf at ht
    rw [AssocMap.lookup, if_neg hne] at ht
    cases ht
  exact fun t m₁ m₂ h₁ h₂ => (hone h₁).trans (hone h₂).symm

def newMember : Subscription := ⟨∅, 0⟩

def aTask : TaskId := ⟨0, 0⟩

/-- The task goes to one member, then to another, and the first answer is acted on last. -/
def moved : List Event :=
  [.addMember "a" newMember, .addMember "b" newMember, .updateTarget [("a", {aTask})], .answer "a",
    .updateTarget [("b", {aTask})], .answer "b", .apply 1]

theorem moved_perTask : ∀ e ∈ moved ++ [.apply 0], e.PerTask := by
  intro e he
  simp only [moved, List.cons_append, List.nil_append, List.mem_cons, List.not_mem_nil, or_false] at he
  rcases he with rfl | rfl | rfl | rfl | rfl | rfl | rfl | rfl
  · trivial
  · trivial
  · exact singleOwner_one "a" _
  · trivial
  · exact singleOwner_one "b" _
  · trivial
  · trivial
  · trivial

theorem single_owner_moved : ∃ g, run step Group.init moved = some g ∧ SingleOwner g.state.gsOwned ∧ Settles g.state := by
  obtain ⟨g, hg⟩ := Option.isSome_iff_exists.1 (show (run step Group.init moved).isSome = true by decide)
  exact ⟨g, hg, single_owner hg (fun e he => moved_perTask e (List.mem_append_left _ he)) (by decide)⟩

/-- **A late answer gives a task a second owner.** -/
theorem late_answer : ¬ ∀ (es : List Event) (g : Group), run step Group.init es = some g → (∀ e ∈ es, e.PerTask) →
    SingleOwner g.state.gsOwned ∧ Settles g.state := by
  intro hall
  obtain ⟨g, hg⟩ := Option.isSome_iff_exists.1
    (show (run step Group.init (moved ++ [.apply 0])).isSome = true by decide)
  have howners : ((run step Group.init (moved ++ [.apply 0])).map fun g =>
      (tasksOf "a" g.state.gsOwned, tasksOf "b" g.state.gsOwned)) = some ({aTask}, {aTask}) := by decide
  rw [hg, Option.map_some, Option.some_inj, Prod.mk.injEq] at howners
  have hsame := (hall _ g hg moved_perTask).1 aTask "a" "b" (by rw [howners.1]; decide) (by rw [howners.2]; decide)
  exact absurd hsame (by decide)

end Wireform.Kafka.Streams
