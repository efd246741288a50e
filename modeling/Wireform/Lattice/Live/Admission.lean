/-
  Admission to live groups (`Lattice.Server.Live`).

  Calls of `liveSubscribe` and the unregistering of subscribers interleave.  The count and
  the join of a call are separate transactions; the table of groups changes only under the
  join lock.  Each step is one transaction, or one action between two of them.

  * `Holder`: who holds the join lock, and how far it has come;
  * `step`: the steps; `Event.Throws` are those that end in an exception;
  * `Inv`: what holds between them;
  * `admission_iff`: the count is right as long as nothing has thrown.
-/
import Mathlib.Algebra.BigOperators.Group.Finset.Basic
import Mathlib.Tactic.Ring
import Wireform.Filing
import Wireform.Transition

namespace Wireform.Lattice.Live.Admission

open AssocMap (lookup erase)

variable {κ : Type} [LinearOrder κ]

/-- The lawfulness of the equality test of the keys, found once for all definitions below. -/
local instance lawfulKeys : LawfulBEq κ := inferInstance

/-! ## States -/

/-- A group, with the ids of its subscribers. -/
structure Group (κ : Type) where
  /-- The key of the calls that work on the group. -/
  key : κ
  lgMembers : Finset Nat
  lgStop : Bool
  /-- The worker was forked. -/
  worker : Bool

inductive Holder (κ : Type) where
  | free
  /-- A call for this key, before it looks for the group. -/
  | looking (key : κ)
  /-- There is no group, and the call subscribes to the bus. -/
  | subscribing (key : κ)
  /-- The group is in the table, its worker is not yet forked. -/
  | forking (key : κ) (grp : Nat)
  | executing (key : κ) (grp : Nat) (created : Bool)
  /-- The execution ended with an error value. -/
  | failed (key : κ) (grp : Nat) (created : Bool)
  | leaving
  | joined
  | unregistering (grp sid : Nat)
  /-- The last subscriber of the group is gone. -/
  | emptied (grp : Nat)
  | left

/-- `liveEntry` is the table as it was when the join lock was taken; no step reads it. -/
structure State (κ : Type) where
  liveCount : Int
  liveGroups : AssocMap κ Nat
  liveNextId : Nat
  group : Nat → Group κ
  nextGroup : Nat
  holder : Holder κ
  /-- The keys of the calls that are admitted and wait for the lock. -/
  waiting : List κ
  /-- The calls that have failed and are about to give their place back. -/
  failing : Nat
  liveEntry : AssocMap κ Nat

inductive Outcome where
  | refused
  | contended
  | snapshot
  | throws
  deriving DecidableEq

inductive Event (κ : Type) where
  | reserve (key : κ)
  | lock (key : κ)
  | lookup
  | subscribeBus (ok : Bool)
  | fork
  | execute (o : Outcome)
  | fail
  | unlock
  | giveBack
  | unregister (grp sid : Nat)
  | remove
  | retire
  deriving DecidableEq

def Event.Throws : Event κ → Prop
  | .subscribeBus ok => ok = false
  | .execute o => o = .throws
  | _ => False

instance (e : Event κ) : Decidable e.Throws := by
  cases e <;> unfold Event.Throws <;> infer_instance

def State.init (k : κ) : State κ :=
  { liveCount := 0, liveGroups := [], liveNextId := 1, group := fun _ => ⟨k, ∅, true, false⟩, nextGroup := 0,
    holder := .free, waiting := [], failing := 0, liveEntry := [] }

def State.setGroup (s : State κ) (grp : Nat) (f : Group κ → Group κ) : State κ :=
  { s with group := Function.update s.group grp (f (s.group grp)) }

/-! ## Steps -/

def Group.stop (g : Group κ) : Group κ := { g with lgStop := true }

def Group.forkWorker (g : Group κ) : Group κ := { g with worker := true }

def Group.join (sid : Nat) (g : Group κ) : Group κ := { g with lgMembers := insert sid g.lgMembers }

def Group.drop (sid : Nat) (g : Group κ) : Group κ := { g with lgMembers := g.lgMembers.erase sid }

def retireGroup (s : State κ) (grp : Nat) : State κ :=
  { s.setGroup grp Group.stop with liveGroups := erase (s.group grp).key s.liveGroups }

/-- The subscriber is known to the group from now on. -/
def register (s : State κ) (grp : Nat) : State κ :=
  { s.setGroup grp (Group.join s.liveNextId) with liveNextId := s.liveNextId + 1 }

/-- A new group, in the table. -/
def createGroup (s : State κ) (key : κ) : State κ :=
  { s with
    group := Function.update s.group s.nextGroup ⟨key, ∅, false, false⟩
    nextGroup := s.nextGroup + 1
    liveGroups := AssocMap.insert key s.nextGroup s.liveGroups }

def step (liveMaxSubscribers : Int) (s : State κ) : Event κ → Option (State κ)
  | .reserve key =>
    if s.liveCount ≥ max 0 liveMaxSubscribers then some s
    else some { s with liveCount := s.liveCount + 1, waiting := key :: s.waiting }
  | .lock key =>
    match s.holder with
    | .free =>
      if key ∈ s.waiting then
        some { s with holder := .looking key, waiting := s.waiting.erase key, liveEntry := s.liveGroups }
      else none
    | _ => none
  | .lookup =>
    match s.holder with
    | .looking key =>
      match lookup key s.liveGroups with
      | some grp => some { s with holder := .executing key grp false }
      | none => some { s with holder := .subscribing key }
    | _ => none
  | .subscribeBus ok =>
    match s.holder with
    | .subscribing key =>
      if ok then some { createGroup s key with holder := .forking key s.nextGroup } else some { s with holder := .free }
    | _ => none
  | .fork =>
    match s.holder with
    | .forking key grp =>
      some { s.setGroup grp Group.forkWorker with holder := .executing key grp true }
    | _ => none
  | .execute o =>
    match s.holder with
    | .executing key grp created =>
      match o with
      | .refused | .contended => some { s with holder := .failed key grp created }
      | .snapshot => some { register s grp with holder := .joined }
      | .throws => some { s with holder := .free }
    | _ => none
  | .fail =>
    match s.holder with
    | .failed _ grp created =>
      if created then some { retireGroup s grp with holder := .leaving } else some { s with holder := .leaving }
    | _ => none
  | .unlock =>
    match s.holder with
    | .leaving => some { s with holder := .free, failing := s.failing + 1 }
    | .joined | .left => some { s with holder := .free }
    | _ => none
  | .giveBack => if s.failing = 0 then none else some { s with failing := s.failing - 1, liveCount := s.liveCount - 1 }
  | .unregister grp sid =>
    match s.holder with
    | .free => if grp < s.nextGroup then some { s with holder := .unregistering grp sid } else none
    | _ => none
  | .remove =>
    match s.holder with
    | .unregistering grp sid =>
      let ms := (s.group grp).lgMembers
      let s' := s.setGroup grp (Group.drop sid)
      if sid ∈ ms then
        some { s' with
          liveCount := s.liveCount - 1
          holder := if ms.erase sid = ∅ then .emptied grp else .left }
      else some { s' with holder := .left }
    | _ => none
  | .retire =>
    match s.holder with
    | .emptied grp => some { retireGroup s grp with holder := .left }
    | _ => none

attribute [grind =] step

/-! ## What is counted -/

/-- The subscribers of all groups. -/
def State.registered (s : State κ) : Nat := ∑ grp ∈ Finset.range s.nextGroup, (s.group grp).lgMembers.card

/-- The holder of the lock is a call that is neither registered nor refused for good. -/
def Holder.pending : Holder κ → Nat
  | .looking _ | .subscribing _ | .forking .. | .executing .. | .failed .. | .leaving => 1
  | _ => 0

/-- The calls that are admitted and not yet decided. -/
def State.inProgress (s : State κ) : Nat := s.waiting.length + s.failing + s.holder.pending

/-- What the holder of the lock knows about its group and the table. -/
def Holder.Knows (s : State κ) : Holder κ → Prop
  | .forking key grp | .executing key grp true | .failed key grp true =>
    lookup key s.liveGroups = some grp ∧ (s.group grp).lgMembers = ∅ ∧ lookup key s.liveEntry = none ∧
      ∀ k, k ≠ key → lookup k s.liveGroups = lookup k s.liveEntry
  | .executing key grp false | .failed key grp false =>
    lookup key s.liveGroups = some grp ∧ ∀ k, lookup k s.liveGroups = lookup k s.liveEntry
  | .looking _ | .leaving => ∀ k, lookup k s.liveGroups = lookup k s.liveEntry
  | .subscribing key => lookup key s.liveGroups = none ∧ ∀ k, lookup k s.liveGroups = lookup k s.liveEntry
  | .unregistering grp _ => grp < s.nextGroup
  | .emptied grp => lookup (s.group grp).key s.liveGroups = some grp ∧ (s.group grp).lgMembers = ∅
  | _ => True

/-- What always holds of the groups. -/
structure Tables (s : State κ) : Prop where
  /-- A group of the table is known by its key, and runs. -/
  listed : ∀ k grp, lookup k s.liveGroups = some grp → grp < s.nextGroup ∧ (s.group grp).key = k ∧
    (s.group grp).lgStop = false
  /-- A group with subscribers is in the table. -/
  joined : ∀ grp < s.nextGroup, (s.group grp).lgMembers ≠ ∅ → lookup (s.group grp).key s.liveGroups = some grp
  ids : ∀ grp < s.nextGroup, ∀ sid ∈ (s.group grp).lgMembers, sid < s.liveNextId

structure Inv (s : State κ) : Prop where
  tables : Tables s
  /-- A group of the table has its worker, or is about to get it. -/
  forked : ∀ k grp, lookup k s.liveGroups = some grp → (s.group grp).worker = true ∨ s.holder = .forking k grp
  knows : s.holder.Knows s

/-- The step `e` retires the group. -/
def Retires (s : State κ) (e : Event κ) (grp : Nat) : Prop :=
  (e = .retire ∧ s.holder = .emptied grp) ∨ (e = .fail ∧ ∃ key, s.holder = .failed key grp true)

/-! ## Counting -/

omit [LinearOrder κ] in
/-- What an update of a group does to the number of subscribers. -/
theorem registered_setGroup {s : State κ} {grp : Nat} (h : grp < s.nextGroup) (f : Group κ → Group κ) :
    (s.setGroup grp f).registered + (s.group grp).lgMembers.card =
      s.registered + (f (s.group grp)).lgMembers.card := by
  have hmem : grp ∈ Finset.range s.nextGroup := Finset.mem_range.2 h
  have hsame : ∑ i ∈ (Finset.range s.nextGroup).erase grp,
      (Function.update s.group grp (f (s.group grp)) i).lgMembers.card =
      ∑ i ∈ (Finset.range s.nextGroup).erase grp, (s.group i).lgMembers.card :=
    Finset.sum_congr rfl fun i hi => by rw [Function.update_of_ne (Finset.ne_of_mem_erase hi)]
  show (∑ i ∈ Finset.range s.nextGroup, (Function.update s.group grp (f (s.group grp)) i).lgMembers.card) + _ = _
  rw [State.registered, ← Finset.add_sum_erase _ _ hmem, ← Finset.add_sum_erase _ _ hmem, hsame,
    Function.update_self]
  ring

omit [LinearOrder κ] in
theorem registered_same (s : State κ) (grp : Nat) {f : Group κ → Group κ}
    (hf : (f (s.group grp)).lgMembers = (s.group grp).lgMembers) : (s.setGroup grp f).registered = s.registered := by
  refine Finset.sum_congr rfl fun i _ => ?_
  show (Function.update s.group grp _ i).lgMembers.card = _
  by_cases hi : i = grp
  · subst hi
    rw [Function.update_self, hf]
  · rw [Function.update_of_ne hi]

theorem registered_create (s : State κ) (key : κ) : (createGroup s key).registered = s.registered := by
  show ∑ i ∈ Finset.range (s.nextGroup + 1), (Function.update s.group s.nextGroup _ i).lgMembers.card = _
  rw [Finset.sum_range_succ, Function.update_self, Finset.card_empty, Nat.add_zero]
  refine Finset.sum_congr rfl fun i hi => ?_
  rw [Function.update_of_ne (Finset.mem_range.1 hi).ne]

section

variable {s s' : State κ} {m : Int}

theorem registered_register (h : Inv s) {grp : Nat} (hgrp : grp < s.nextGroup) :
    (register s grp).registered = s.registered + 1 := by
  have hfresh : s.liveNextId ∉ (s.group grp).lgMembers := fun hmem => lt_irrefl _ (h.tables.ids grp hgrp _ hmem)
  have hsum := registered_setGroup hgrp (Group.join s.liveNextId)
  have hcard : (Group.join s.liveNextId (s.group grp)).lgMembers.card = (s.group grp).lgMembers.card + 1 :=
    Finset.card_insert_of_notMem hfresh
  show (s.setGroup grp (Group.join s.liveNextId)).registered = _
  omega

omit [LinearOrder κ] in
theorem registered_drop {grp sid : Nat} (hgrp : grp < s.nextGroup) (hmem : sid ∈ (s.group grp).lgMembers) :
    (s.setGroup grp (Group.drop sid)).registered + 1 = s.registered := by
  have hsum := registered_setGroup hgrp (Group.drop sid)
  have hcard : (Group.drop sid (s.group grp)).lgMembers.card + 1 = (s.group grp).lgMembers.card :=
    Finset.card_erase_add_one hmem
  omega

/-- The difference between the count and what is counted. -/
def State.surplus (s : State κ) : Int := s.liveCount - s.registered - s.inProgress

omit [LinearOrder κ] in
theorem surplus_of {r : Nat} {d : Int} (hreg : s'.registered = r)
    (h : s'.liveCount - r - s'.inProgress = s.liveCount - s.registered - s.inProgress + d) :
    s'.surplus = s.surplus + d := by
  unfold State.surplus
  omega

/-- The holder of the lock knows its group. -/
theorem Inv.executing_lt (h : Inv s) {key : κ} {grp : Nat} {created : Bool}
    (hh : s.holder = .executing key grp created) : grp < s.nextGroup := by
  have hk := h.knows
  rw [hh] at hk
  cases created <;> exact (h.tables.listed key grp hk.1).1

theorem Inv.unregistering_lt (h : Inv s) {grp sid : Nat} (hh : s.holder = .unregistering grp sid) :
    grp < s.nextGroup := by
  have hk := h.knows
  rw [hh] at hk
  exact hk

/-- **Only a step that throws changes the surplus, by one.** -/
theorem surplus_step (h : Inv s) {e : Event κ} (hs : step m s e = some s') :
    s'.surplus = s.surplus + if e.Throws then 1 else 0 := by
  cases e with
  | reserve key =>
    simp only [step] at hs
    split_ifs at hs
    · cases hs
      simp [Event.Throws]
    · cases hs
      refine surplus_of (r := s.registered) rfl ?_
      simp [Event.Throws, State.inProgress]
      omega
  | lock key =>
    cases hh : s.holder <;> simp only [step, hh] at hs <;> try cases hs
    split_ifs at hs with hmem
    cases hs
    have hlen := List.length_erase_add_one hmem
    refine surplus_of (r := s.registered) rfl ?_
    simp [Event.Throws, State.inProgress, hh, Holder.pending]
    omega
  | lookup =>
    cases hh : s.holder <;> simp only [step, hh] at hs <;> try cases hs
    split at hs <;> cases hs <;> refine surplus_of (r := s.registered) rfl ?_ <;>
      simp [Event.Throws, State.inProgress, hh, Holder.pending]
  | subscribeBus ok =>
    cases hh : s.holder <;> simp only [step, hh] at hs <;> try cases hs
    rename_i key
    split_ifs at hs with hok
    · cases hs
      refine surplus_of (r := s.registered) (registered_create s key) ?_
      simp [Event.Throws, State.inProgress, hh, Holder.pending, createGroup, hok]
    · cases hs
      refine surplus_of (r := s.registered) rfl ?_
      simp [Event.Throws, State.inProgress, hh, Holder.pending, hok]
      omega
  | fork =>
    cases hh : s.holder <;> simp only [step, hh] at hs <;> try cases hs
    refine surplus_of (r := s.registered) (registered_same s _ rfl) ?_
    simp [Event.Throws, State.inProgress, hh, Holder.pending, State.setGroup]
  | execute o =>
    cases hh : s.holder <;> simp only [step, hh] at hs <;> try cases hs
    cases o <;> cases hs
    · refine surplus_of (r := s.registered) rfl ?_
      simp [Event.Throws, State.inProgress, hh, Holder.pending]
    · refine surplus_of (r := s.registered) rfl ?_
      simp [Event.Throws, State.inProgress, hh, Holder.pending]
    · refine surplus_of (registered_register h (h.executing_lt hh)) ?_
      simp [Event.Throws, State.inProgress, hh, Holder.pending, register, State.setGroup]
      omega
    · refine surplus_of (r := s.registered) rfl ?_
      simp [Event.Throws, State.inProgress, hh, Holder.pending]
      omega
  | fail =>
    cases hh : s.holder <;> simp only [step, hh] at hs <;> try cases hs
    split_ifs at hs
    · cases hs
      refine surplus_of (r := s.registered) (registered_same s _ rfl) ?_
      simp [Event.Throws, State.inProgress, hh, Holder.pending, retireGroup, State.setGroup]
    · cases hs
      refine surplus_of (r := s.registered) rfl ?_
      simp [Event.Throws, State.inProgress, hh, Holder.pending]
  | unlock =>
    cases hh : s.holder <;> simp only [step, hh] at hs <;> cases hs <;>
      refine surplus_of (r := s.registered) rfl ?_ <;> simp [Event.Throws, State.inProgress, hh, Holder.pending]
    omega
  | giveBack =>
    simp only [step] at hs
    split_ifs at hs with hzero
    cases hs
    refine surplus_of (r := s.registered) rfl ?_
    simp [Event.Throws, State.inProgress]
    omega
  | unregister grp sid =>
    cases hh : s.holder <;> simp only [step, hh] at hs <;> try cases hs
    split_ifs at hs
    cases hs
    refine surplus_of (r := s.registered) rfl ?_
    simp [Event.Throws, State.inProgress, hh, Holder.pending]
  | remove =>
    cases hh : s.holder <;> simp only [step, hh] at hs <;> try cases hs
    rename_i grp sid
    by_cases hmem : sid ∈ (s.group grp).lgMembers
    · have hreg := registered_drop (h.unregistering_lt hh) hmem
      rw [if_pos hmem] at hs
      cases hs
      refine surplus_of (r := (s.setGroup grp (Group.drop sid)).registered) rfl ?_
      generalize (s.setGroup grp (Group.drop sid)).registered = r at hreg
      have hquiet : ¬(Event.remove : Event κ).Throws := id
      rw [if_neg hquiet]
      split_ifs <;> simp [State.inProgress, hh, Holder.pending, State.setGroup] <;> omega
    · rw [if_neg hmem] at hs
      cases hs
      refine surplus_of (r := s.registered) (registered_same s grp (Finset.erase_eq_of_notMem hmem)) ?_
      simp [Event.Throws, State.inProgress, hh, Holder.pending, State.setGroup]
  | retire =>
    cases hh : s.holder <;> simp only [step, hh] at hs <;> try cases hs
    refine surplus_of (r := s.registered) (registered_same s _ rfl) ?_
    simp [Event.Throws, State.inProgress, hh, Holder.pending, retireGroup, State.setGroup]

/-! ## The tables -/

theorem Tables.init (k : κ) : Tables (State.init k) where
  listed _ _ hl := by cases hl
  joined _ hlt := by cases hlt
  ids _ hlt := by cases hlt

/-- An update that keeps the key and the flag of the group, and adds no subscriber. -/
theorem Tables.setGroup (h : Tables s) (grp : Nat) {f : Group κ → Group κ} (hkey : ∀ g, (f g).key = g.key)
    (hstop : ∀ g, (f g).lgStop = g.lgStop) (hsub : ∀ g, (f g).lgMembers ⊆ g.lgMembers) :
    Tables (s.setGroup grp f) := by
  have hgroup : ∀ i, ((s.setGroup grp f).group i).key = (s.group i).key ∧
      ((s.setGroup grp f).group i).lgStop = (s.group i).lgStop ∧
      ((s.setGroup grp f).group i).lgMembers ⊆ (s.group i).lgMembers := by
    intro i
    show (Function.update s.group grp _ i).key = _ ∧ (Function.update s.group grp _ i).lgStop = _ ∧
      (Function.update s.group grp _ i).lgMembers ⊆ _
    by_cases hi : i = grp
    · subst hi
      rw [Function.update_self]
      exact ⟨hkey _, hstop _, hsub _⟩
    · rw [Function.update_of_ne hi]
      exact ⟨rfl, rfl, fun _ hx => hx⟩
  constructor
  · intro k i hl
    obtain ⟨hlt, hk, hflag⟩ := h.listed k i hl
    exact ⟨hlt, (hgroup i).1.trans hk, (hgroup i).2.1.trans hflag⟩
  · intro i hlt hne
    rw [(hgroup i).1]
    refine h.joined i hlt fun hempty => hne ?_
    exact Finset.subset_empty.1 (hempty ▸ (hgroup i).2.2)
  · intro i hlt sid hsid
    exact h.ids i hlt sid ((hgroup i).2.2 hsid)

theorem Tables.join (h : Tables s) {grp : Nat} (hl : lookup (s.group grp).key s.liveGroups = some grp) :
    Tables (register s grp) := by
  have hgroup : ∀ i, ((register s grp).group i).key = (s.group i).key ∧
      ((register s grp).group i).lgStop = (s.group i).lgStop ∧
      ∀ sid ∈ ((register s grp).group i).lgMembers,
        sid ∈ (s.group i).lgMembers ∨ i = grp ∧ sid = s.liveNextId := by
    intro i
    show (Function.update s.group grp _ i).key = _ ∧ (Function.update s.group grp _ i).lgStop = _ ∧
      ∀ sid ∈ (Function.update s.group grp _ i).lgMembers, _
    by_cases hi : i = grp
    · subst hi
      rw [Function.update_self]
      refine ⟨rfl, rfl, fun sid hsid => ?_⟩
      rcases Finset.mem_insert.1 hsid with hnew | hold
      · exact .inr ⟨rfl, hnew⟩
      · exact .inl hold
    · rw [Function.update_of_ne hi]
      exact ⟨rfl, rfl, fun _ hx => .inl hx⟩
  constructor
  · intro k i hli
    obtain ⟨hlt, hk, hflag⟩ := h.listed k i hli
    exact ⟨hlt, (hgroup i).1.trans hk, (hgroup i).2.1.trans hflag⟩
  · intro i hlt hne
    rw [(hgroup i).1]
    obtain ⟨sid, hsid⟩ := Finset.nonempty_iff_ne_empty.2 hne
    rcases (hgroup i).2.2 sid hsid with hold | ⟨rfl, -⟩
    · exact h.joined i hlt (Finset.ne_empty_of_mem hold)
    · exact hl
  · intro i hlt sid hsid
    rcases (hgroup i).2.2 sid hsid with hold | ⟨-, rfl⟩
    · exact Nat.lt_succ_of_lt (h.ids i hlt sid hold)
    · exact Nat.lt_succ_self _

theorem lookup_create (s : State κ) (key k : κ) : lookup k (createGroup s key).liveGroups =
    if k = key then some s.nextGroup else lookup k s.liveGroups := AssocMap.lookup_insert ..

theorem lookup_retire (s : State κ) (grp : Nat) (k : κ) : lookup k (retireGroup s grp).liveGroups =
    if k = (s.group grp).key then none else lookup k s.liveGroups := AssocMap.lookup_erase ..

theorem Tables.create (h : Tables s) {key : κ} (hnone : lookup key s.liveGroups = none) :
    Tables (createGroup s key) := by
  have hnew : (createGroup s key).group s.nextGroup = ⟨key, ∅, false, false⟩ := Function.update_self ..
  have hold : ∀ i < s.nextGroup, (createGroup s key).group i = s.group i :=
    fun i hi => Function.update_of_ne hi.ne _ _
  have hcases : ∀ i < s.nextGroup + 1, i = s.nextGroup ∨ i < s.nextGroup := fun i hi => by omega
  constructor
  · intro k i hl
    rw [lookup_create] at hl
    split_ifs at hl with hk
    · cases hl
      rw [hnew]
      exact ⟨Nat.lt_succ_self _, hk.symm, rfl⟩
    · obtain ⟨hlt, hrest⟩ := h.listed k i hl
      rw [hold i hlt]
      exact ⟨Nat.lt_succ_of_lt hlt, hrest⟩
  · intro i hlt hne
    rcases hcases i hlt with rfl | hi
    · rw [hnew] at hne
      exact absurd rfl hne
    · rw [hold i hi] at hne ⊢
      have hl := h.joined i hi hne
      rw [lookup_create, if_neg]
      · exact hl
      · intro hk
        rw [hk, hnone] at hl
        cases hl
  · intro i hlt sid hsid
    rcases hcases i hlt with rfl | hi
    · rw [hnew] at hsid
      exact absurd hsid (Finset.notMem_empty _)
    · rw [hold i hi] at hsid
      exact h.ids i hi sid hsid

/-- The group that is retired is the one in the table, and it has no subscribers. -/
theorem Tables.retire (h : Tables s) {grp : Nat} (hl : lookup (s.group grp).key s.liveGroups = some grp)
    (hempty : (s.group grp).lgMembers = ∅) : Tables (retireGroup s grp) := by
  have hold : ∀ i, i ≠ grp → (retireGroup s grp).group i = s.group i :=
    fun i hi => Function.update_of_ne hi _ _
  have hmembers : ((retireGroup s grp).group grp).lgMembers = ∅ := by
    show (Function.update s.group grp _ grp).lgMembers = ∅
    rw [Function.update_self]
    exact hempty
  constructor
  · intro k i hli
    rw [lookup_retire] at hli
    split_ifs at hli with hk
    have hi := h.listed k i hli
    rw [hold i fun heq => hk (heq ▸ hi.2.1.symm)]
    exact hi
  · intro i hlt hne
    have hi : i ≠ grp := fun heq => hne (heq ▸ hmembers)
    rw [hold i hi] at hne ⊢
    have hli := h.joined i hlt hne
    rw [lookup_retire, if_neg]
    · exact hli
    · intro hk
      rw [hk, hl] at hli
      exact hi (Option.some.inj hli).symm
  · intro i hlt sid hsid
    by_cases hi : i = grp
    · rw [hi, hmembers] at hsid
      exact absurd hsid (Finset.notMem_empty _)
    · rw [hold i hi] at hsid
      exact h.ids i hlt sid hsid

/-! ## The invariant -/

theorem Tables.move (h : Tables s) (n : Int) (hd : Holder κ) (w : List κ) (f : Nat) (t : AssocMap κ Nat) :
    Tables { s with liveCount := n, holder := hd, waiting := w, failing := f, liveEntry := t } :=
  ⟨h.listed, h.joined, h.ids⟩

/-- What the holder knows does not depend on the calls that wait or fail. -/
theorem knows_aside {hd : Holder κ} (h : hd.Knows s) (n : Int) (w : List κ) (f : Nat) :
    hd.Knows { s with liveCount := n, waiting := w, failing := f } := by
  cases hd with
  | executing key grp created => cases created <;> exact h
  | failed key grp created => cases created <;> exact h
  | _ => exact h

/-- Every group of the table has its worker. -/
def State.Working (s : State κ) : Prop := ∀ k grp, lookup k s.liveGroups = some grp → (s.group grp).worker = true

theorem Inv.working (h : Inv s) (hh : ∀ k grp, s.holder ≠ .forking k grp) : s.Working :=
  fun k grp hl => (h.forked k grp hl).resolve_right (hh k grp)

theorem Working.setGroup (h : s.Working) (grp : Nat) {f : Group κ → Group κ}
    (hf : ∀ g, g.worker = true → (f g).worker = true) : (s.setGroup grp f).Working := by
  intro k i hl
  show (Function.update s.group grp _ i).worker = true
  by_cases hi : i = grp
  · subst hi
    rw [Function.update_self]
    exact hf _ (h k i hl)
  · rw [Function.update_of_ne hi]
    exact h k i hl

theorem Working.retire (h : s.Working) (grp : Nat) : (retireGroup s grp).Working := by
  intro k i hl
  rw [lookup_retire] at hl
  split_ifs at hl
  exact Working.setGroup h grp (f := Group.stop) (fun _ hg => hg) k i hl

/-- A step that moves the holder, where no group waits for its worker. -/
theorem Inv.of_working (ht : Tables s) (hw : s.Working) (hk : s.holder.Knows s) : Inv s :=
  ⟨ht, fun k grp hl => .inl (hw k grp hl), hk⟩

theorem Inv.init (k : κ) : Inv (State.init k) :=
  .of_working (Tables.init k) (fun _ _ hl => by cases hl) trivial

theorem Inv.executing_key (h : Inv s) {key : κ} {grp : Nat} (hl : lookup key s.liveGroups = some grp) :
    (s.group grp).key = key := (h.tables.listed key grp hl).2.1

/-- **Every step keeps the invariant.** -/
theorem Inv.step (h : Inv s) {e : Event κ} (hs : step m s e = some s') : Inv s' := by
  have hknows := h.knows
  cases e with
  | reserve key =>
    simp only [Admission.step] at hs
    split_ifs at hs
    · cases hs
      exact h
    · cases hs
      exact ⟨h.tables.move .., h.forked, knows_aside hknows ..⟩
  | lock key =>
    cases hh : s.holder <;> simp only [Admission.step, hh] at hs <;> try cases hs
    split_ifs at hs
    cases hs
    have hw := h.working (by simp [hh])
    exact .of_working (h.tables.move ..) hw fun _ => rfl
  | lookup =>
    cases hh : s.holder <;> simp only [Admission.step, hh] at hs <;> try cases hs
    have hw := h.working (by simp [hh])
    rw [hh] at hknows
    split at hs
    · rename_i hl
      cases hs
      exact .of_working (h.tables.move ..) hw ⟨hl, hknows⟩
    · rename_i hl
      cases hs
      exact .of_working (h.tables.move ..) hw ⟨hl, hknows⟩
  | subscribeBus ok =>
    cases hh : s.holder <;> simp only [Admission.step, hh] at hs <;> try cases hs
    rename_i key
    have hw := h.working (by simp [hh])
    rw [hh] at hknows
    obtain ⟨hnone, hentry⟩ := hknows
    split_ifs at hs
    · cases hs
      refine ⟨(h.tables.create hnone).move .., fun k i hl => ?_, ?_⟩
      · have hl' := (lookup_create s key k).symm.trans hl
        split_ifs at hl' with hk
        · cases hl'
          exact .inr (by rw [hk])
        · refine .inl ?_
          show (Function.update s.group s.nextGroup _ i).worker = true
          rw [Function.update_of_ne (h.tables.listed k i hl').1.ne]
          exact hw k i hl'
      · refine ⟨(lookup_create s key key).trans (if_pos rfl), ?_, (hentry key).symm.trans hnone, fun k hk => ?_⟩
        · show (Function.update s.group s.nextGroup _ s.nextGroup).lgMembers = ∅
          rw [Function.update_self]
        · exact ((lookup_create s key k).trans (if_neg hk)).trans (hentry k)
    · cases hs
      exact .of_working (h.tables.move ..) hw trivial
  | fork =>
    cases hh : s.holder <;> simp only [Admission.step, hh] at hs <;> try cases hs
    rename_i key grp
    rw [hh] at hknows
    obtain ⟨hl, hempty, hentry, hothers⟩ := hknows
    have hw : (s.setGroup grp Group.forkWorker).Working := by
      intro k i hli
      show (Function.update s.group grp _ i).worker = true
      by_cases hi : i = grp
      · rw [hi, Function.update_self]
        rfl
      · rw [Function.update_of_ne hi]
        refine (h.forked k i hli).resolve_right fun heq => hi ?_
        rw [hh] at heq
        cases heq
        rfl
    have ht := h.tables.setGroup grp (f := Group.forkWorker) (fun _ => rfl) (fun _ => rfl) fun _ _ hx => hx
    refine .of_working (ht.move ..) hw ⟨hl, ?_, hentry, hothers⟩
    show (Function.update s.group grp _ grp).lgMembers = ∅
    rw [Function.update_self]
    exact hempty
  | execute o =>
    cases hh : s.holder <;> simp only [Admission.step, hh] at hs <;> try cases hs
    rename_i key grp created
    have hw := h.working (by simp [hh])
    rw [hh] at hknows
    cases o <;> cases hs
    · exact .of_working (h.tables.move ..) hw (by cases created <;> exact hknows)
    · exact .of_working (h.tables.move ..) hw (by cases created <;> exact hknows)
    · have hl : lookup key s.liveGroups = some grp := by cases created <;> exact hknows.1
      have hkey := h.executing_key hl
      have hw' := Working.setGroup hw grp (f := Group.join s.liveNextId) fun _ hg => hg
      exact .of_working ((h.tables.join (hkey.symm ▸ hl)).move ..) hw' trivial
    · exact .of_working (h.tables.move ..) hw trivial
  | fail =>
    cases hh : s.holder <;> simp only [Admission.step, hh] at hs <;> try cases hs
    rename_i key grp created
    have hw := h.working (by simp [hh])
    rw [hh] at hknows
    cases created <;> cases hs
    · exact .of_working (h.tables.move ..) hw hknows.2
    · obtain ⟨hl, hempty, hentry, hothers⟩ := hknows
      have hkey := h.executing_key hl
      refine .of_working ((h.tables.retire (hkey.symm ▸ hl) hempty).move ..) (Working.retire hw grp) fun k => ?_
      refine (lookup_retire s grp k).trans ?_
      split_ifs with hk
      · rw [hk, hkey]
        exact hentry.symm
      · exact hothers k (hkey ▸ hk)
  | unlock =>
    have hw : s.Working := h.working fun k grp hh => by
      simp only [Admission.step, hh] at hs
      cases hs
    cases hh : s.holder <;> simp only [Admission.step, hh] at hs <;> cases hs <;>
      exact .of_working (h.tables.move ..) hw trivial
  | giveBack =>
    simp only [Admission.step] at hs
    split_ifs at hs
    cases hs
    exact ⟨h.tables.move .., h.forked, knows_aside hknows ..⟩
  | unregister grp sid =>
    cases hh : s.holder <;> simp only [Admission.step, hh] at hs <;> try cases hs
    split_ifs at hs with hlt
    cases hs
    have hw := h.working (by simp [hh])
    exact .of_working (h.tables.move ..) hw hlt
  | remove =>
    cases hh : s.holder <;> simp only [Admission.step, hh] at hs <;> try cases hs
    rename_i grp sid
    have hw := h.working (by simp [hh])
    have hlt := h.unregistering_lt hh
    have ht := h.tables.setGroup grp (f := Group.drop sid) (fun _ => rfl) (fun _ => rfl)
      fun g => Finset.erase_subset sid _
    have hw' := Working.setGroup hw grp (f := Group.drop sid) fun _ hg => hg
    by_cases hmem : sid ∈ (s.group grp).lgMembers
    · rw [if_pos hmem] at hs
      cases hs
      refine .of_working (ht.move ..) hw' ?_
      show Holder.Knows _ (if (s.group grp).lgMembers.erase sid = ∅ then .emptied grp else .left)
      split_ifs with hlast
      · have hgrp : (s.setGroup grp (Group.drop sid)).group grp = (s.group grp).drop sid := Function.update_self ..
        show lookup ((s.setGroup grp (Group.drop sid)).group grp).key s.liveGroups = some grp ∧
          ((s.setGroup grp (Group.drop sid)).group grp).lgMembers = ∅
        rw [hgrp]
        exact ⟨h.tables.joined grp hlt (Finset.ne_empty_of_mem hmem), hlast⟩
      · exact trivial
    · rw [if_neg hmem] at hs
      cases hs
      exact .of_working (ht.move ..) hw' trivial
  | retire =>
    cases hh : s.holder <;> simp only [Admission.step, hh] at hs <;> try cases hs
    rename_i grp
    have hw := h.working (by simp [hh])
    rw [hh] at hknows
    exact .of_working ((h.tables.retire hknows.1 hknows.2).move ..) (Working.retire hw grp) trivial

/-- **Only the retirement of a group takes it out of the table.** -/
theorem retires_of_removed (h : Inv s) {e : Event κ} (hs : step m s e = some s') {k : κ} {grp : Nat}
    (hl : lookup k s.liveGroups = some grp) (hl' : lookup k s'.liveGroups ≠ some grp) : Retires s e grp := by
  have hknows := h.knows
  cases e with
  | subscribeBus ok =>
    cases hh : s.holder <;> simp only [step, hh] at hs <;> try cases hs
    rename_i key
    rw [hh] at hknows
    split_ifs at hs
    · cases hs
      refine absurd ((lookup_create s key k).trans ?_) hl'
      rw [if_neg, hl]
      intro hk
      rw [hk, hknows.1] at hl
      cases hl
    · cases hs
      exact absurd hl hl'
  | fail =>
    cases hh : s.holder <;> simp only [step, hh] at hs <;> try cases hs
    rename_i key grp' created
    rw [hh] at hknows
    cases created <;> cases hs
    · exact absurd hl hl'
    · refine .inr ⟨rfl, key, ?_⟩
      by_cases hk : k = (s.group grp').key
      · rw [hk, h.executing_key hknows.1, hknows.1] at hl
        cases hl
        exact hh
      · exact absurd (((lookup_retire s grp' k).trans (if_neg hk)).trans hl) hl'
  | retire =>
    cases hh : s.holder <;> simp only [step, hh] at hs <;> try cases hs
    rename_i grp'
    rw [hh] at hknows
    refine .inl ⟨rfl, ?_⟩
    by_cases hk : k = (s.group grp').key
    · rw [hk, hknows.1] at hl
      cases hl
      exact hh
    · exact absurd (((lookup_retire s grp' k).trans (if_neg hk)).trans hl) hl'
  | reserve key =>
    simp only [step] at hs
    split_ifs at hs <;> cases hs <;> exact absurd hl hl'
  | giveBack =>
    simp only [step] at hs
    split_ifs at hs
    cases hs
    exact absurd hl hl'
  | lock key | unregister grp' sid =>
    cases hh : s.holder <;> simp only [step, hh] at hs <;> try cases hs
    split_ifs at hs
    cases hs
    exact absurd hl hl'
  | lookup =>
    cases hh : s.holder <;> simp only [step, hh] at hs <;> try cases hs
    split at hs <;> cases hs <;> exact absurd hl hl'
  | execute o =>
    cases hh : s.holder <;> simp only [step, hh] at hs <;> try cases hs
    cases o <;> cases hs <;> exact absurd hl hl'
  | fork | unlock =>
    cases hh : s.holder <;> simp only [step, hh] at hs <;> cases hs <;> exact absurd hl hl'
  | remove =>
    cases hh : s.holder <;> simp only [step, hh] at hs <;> try cases hs
    split_ifs at hs <;> cases hs <;> exact absurd hl hl'

/-! ## Runs -/

/-- What the groups are like between two steps. -/
structure Orderly (s : State κ) : Prop where
  /-- A group of the table runs, with a worker that was forked or is about to be. -/
  serving : ∀ k grp, lookup k s.liveGroups = some grp →
    (s.group grp).lgStop = false ∧ ((s.group grp).worker = true ∨ s.holder = .forking k grp)
  /-- A call that has failed leaves the table as it found it. -/
  restored : s.holder = .leaving → ∀ k, lookup k s.liveGroups = lookup k s.liveEntry

theorem Inv.orderly (h : Inv s) : Orderly s where
  serving k grp hl := ⟨(h.tables.listed k grp hl).2.2, h.forked k grp hl⟩
  restored hh := by
    have hk := h.knows
    rw [hh] at hk
    exact hk

/-- The surplus is the number of the steps that threw. -/
theorem surplus_run {k : κ} {es : List (Event κ)} (hrun : Transition.run (step m) (State.init k) es = some s) :
    Inv s ∧ s.surplus = es.countP fun e => decide e.Throws := by
  refine Transition.run_induction (P := fun _ _ => True)
    (I := fun past s => Inv s ∧ s.surplus = past.countP fun e => decide e.Throws) ?_
    ⟨Inv.init k, by rw [List.countP_nil]; rfl⟩ (Transition.along_of_forall (fun _ _ => trivial) _ es) hrun
  intro past t e t' ⟨hInv, hcount⟩ _ hs
  refine ⟨hInv.step hs, ?_⟩
  rw [surplus_step hInv hs, hcount, List.countP_append, List.countP_singleton]
  by_cases he : e.Throws <;> simp [he]

/-- **The count is the subscribers and the calls in progress exactly as long as nothing has thrown; the groups of the
    table run in any case, a failed call undoes its own group, and a retirement takes no other group away.** -/
theorem admission_iff {k : κ} {es : List (Event κ)} (hrun : Transition.run (step m) (State.init k) es = some s) :
    (s.liveCount = s.registered + s.inProgress ↔ ∀ e ∈ es, ¬e.Throws) ∧ Orderly s ∧
      ∀ e s', step m s e = some s' → ∀ k' grp, lookup k' s.liveGroups = some grp →
        lookup k' s'.liveGroups ≠ some grp → Retires s e grp := by
  obtain ⟨hInv, hsurplus⟩ := surplus_run hrun
  refine ⟨?_, hInv.orderly, fun e s' hs k' grp hl hl' => retires_of_removed hInv hs hl hl'⟩
  have hzero : s.liveCount = s.registered + s.inProgress ↔ (es.countP fun e => decide e.Throws) = 0 := by
    unfold State.surplus at hsurplus
    omega
  rw [hzero, List.countP_eq_zero]
  exact forall₂_congr fun e _ => by rw [decide_eq_true_iff]

/-- A call creates its group, and its execution throws. -/
def thrown : List (Event Nat) := [.reserve 7, .lock 7, .lookup, .subscribeBus true, .fork, .execute .throws]

/-- Nobody is registered, no call is in progress, and the count stays at one; so does the group in the table. -/
theorem throws_leaks : (Transition.run (step 16) (State.init 7) thrown).map (fun s =>
    (s.liveCount, s.registered, s.inProgress, s.liveGroups)) = some (1, 0, 0, [(7, 0)]) := by
  decide

/-- The call is registered; another joins the group, and one of them leaves. -/
def joined : List (Event Nat) :=
  [.reserve 7, .lock 7, .lookup, .subscribeBus true, .fork, .execute .snapshot, .unlock, .reserve 7, .lock 7, .lookup,
    .execute .snapshot, .unlock, .unregister 0 1, .remove, .unlock]

def State.joined : State Nat := (Transition.run (step 16) (State.init 7) Admission.joined).get (by decide)

theorem admission_iff_joined : State.joined.liveCount = State.joined.registered + State.joined.inProgress ∧
    State.joined.liveCount = 1 :=
  have hrun : Transition.run (step 16) (State.init 7) Admission.joined = some State.joined := (Option.some_get _).symm
  ⟨(admission_iff hrun).1.2 (by decide), by decide⟩

end

end Wireform.Lattice.Live.Admission
