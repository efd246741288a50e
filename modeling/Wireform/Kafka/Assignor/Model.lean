/-
  The partition assignors of a consumer group (`Kafka.Client.Internal.Subscribe`).

  An assignment lists, for every member in the order of the ids, its topics with their
  partitions.

  * `rangeAssign`: each topic is cut into chunks;
  * `roundRobinAssign`: one partition after the other, to the next member that wants it;
  * `stickyAssign`: what a member had stays with it, the rest goes to the least loaded
    (`handout`), and then partitions move from the members above the ceiling to those
    below the floor (`rebalance`).
-/
import Mathlib.Algebra.Order.BigOperators.Group.List
import Mathlib.Data.List.Sort
import Mathlib.Data.Prod.Lex
import Mathlib.Data.String.Basic
import Wireform.AssocMap

namespace Wireform.Kafka.Assignor

abbrev MemberId := String

abbrev TopicPartition := String ×ₗ Int

abbrev Subscriptions := List (MemberId × List String)

abbrev TopicParts := AssocMap String (List Int)

abbrev Assignment := List (MemberId × List (String × List Int))

/-- `Data.List.sortOn`. -/
def sortOn {α κ : Type} [LinearOrder κ] (f : α → κ) (xs : List α) : List α := xs.insertionSort fun a b => f a ≤ f b

/-! ## Ranges -/

def splitSizes {α : Type} : List Nat → List α → List (List α)
  | [], _ => []
  | s :: ss, ys => ys.take s :: splitSizes ss (ys.drop s)

/-- The first chunks get one more. -/
def chunkRange {α : Type} (xs : List α) (n : Nat) : List (List α) :=
  let q := xs.length / n
  let r := xs.length % n
  if n = 0 then [] else splitSizes (List.replicate r (q + 1) ++ List.replicate (n - r) q) xs

/-- One topic of the range assignor. -/
def accumulate (memberOrder : Subscriptions) (e : String × List Int)
    (acc : AssocMap MemberId (List (String × List Int))) : AssocMap MemberId (List (String × List Int)) :=
  let interested := (memberOrder.filter fun m => e.1 ∈ m.2).map Prod.fst
  let chunks := chunkRange e.2 interested.length
  let pairs := (interested.zip chunks).filter fun c => ¬ c.2.isEmpty
  if interested.length = 0 then acc
  else pairs.foldr (fun c m => AssocMap.insertWith (· ++ ·) c.1 [(e.1, c.2)] m) acc

def rangeAssign (members : Subscriptions) (topicParts : TopicParts) : Assignment :=
  let memberOrder := sortOn Prod.fst members
  let assignmentsByMember :=
    topicParts.foldr (accumulate memberOrder) (AssocMap.fromList (memberOrder.map fun m => (m.1, [])))
  memberOrder.map fun m => (m.1, (AssocMap.lookup m.1 assignmentsByMember).getD [])

/-! ## Round robin -/

/-- What each member has so far. -/
abbrev Held := AssocMap MemberId (List TopicPartition)

def groupByTopicSorted (xs : List TopicPartition) : List (String × List Int) :=
  let m : AssocMap String (List Int) :=
    xs.foldl (fun m tp => AssocMap.insertWith (· ++ ·) (ofLex tp).1 [(ofLex tp).2] m) []
  m.map fun e => (e.1, sortOn id e.2)

/-- The partitions of a member. -/
def held (acc : Held) (mid : MemberId) : List TopicPartition := (AssocMap.lookup mid acc).getD []

/-- The member wants the topic. -/
def subscribed (memberSubs : AssocMap MemberId (List String)) (mid : MemberId) (t : String) : Bool :=
  match AssocMap.lookup mid memberSubs with
  | some ts => t ∈ ts
  | none => false

def give (mid : MemberId) (tp : TopicPartition) (acc : Held) : Held :=
  AssocMap.insertWith (· ++ ·) mid [tp] acc

/-- The next member, from `start` on and around, that wants the topic. -/
def findEligible (memberIds : List MemberId) (memberSubs : AssocMap MemberId (List String)) (start : Nat)
    (t : String) : Option (Nat × MemberId) :=
  (List.range memberIds.length).findSome? fun k =>
    let i := (start + k) % memberIds.length
    let mid := memberIds.getD i ""
    if subscribed memberSubs mid t then some (i, mid) else none

def assignLoop (memberIds : List MemberId) (memberSubs : AssocMap MemberId (List String)) :
    Nat → List TopicPartition → Held → Held
  | _, [], acc => acc
  | cur, tp :: rest, acc =>
    match findEligible memberIds memberSubs cur (ofLex tp).1 with
    | none => assignLoop memberIds memberSubs cur rest acc
    | some (i, mid) => assignLoop memberIds memberSubs (i + 1) rest (give mid tp acc)

def roundRobinAssign (members : Subscriptions) (topicParts : TopicParts) : Assignment :=
  let memberOrder := sortOn Prod.fst members
  let memberIds := memberOrder.map Prod.fst
  let memberSubs := AssocMap.fromList memberOrder
  let sortedTopics := sortOn Prod.fst topicParts
  let allPairs := sortedTopics.flatMap fun e => (sortOn id e.2).map fun p => toLex (e.1, p)
  let finalAcc := assignLoop memberIds memberSubs 0 allPairs []
  memberIds.map fun mid => (mid, groupByTopicSorted (held finalAcc mid))

/-! ## Sticky -/

/-- What the previous assignment gave a member, as far as it exists and is still wanted. -/
def kept (memberSubs : AssocMap MemberId (List String)) (allPairs : AssocMap TopicPartition Unit)
    (prev : Assignment) (mid : MemberId) : List TopicPartition :=
  let subs := (AssocMap.lookup mid memberSubs).getD []
  let prevByMember := (prev.lookup mid).getD []
  prevByMember.flatMap fun e =>
    if e.1 ∈ subs then
      (e.2.map fun p => toLex (e.1, p)).filter fun tp => (AssocMap.lookup tp allPairs).isSome
    else []

/-- The partitions go to the members that carry the least. -/
def handout (members : Subscriptions) : Held → List TopicPartition → Held
  | acc, [] => acc
  | acc, tp :: rest =>
    let memberIds := sortOn id (acc.map Prod.fst)
    let memberSubs := AssocMap.fromList members
    let candidates := (memberIds.filter fun mid => subscribed memberSubs mid (ofLex tp).1).map
      fun mid => toLex ((held acc mid).length, mid)
    match sortOn id candidates with
    | [] => handout members acc rest
    | c :: _ => handout members (give (ofLex c).2 tp acc) rest

/-- What the rebalancing works with. -/
structure Targets where
  memberIds : List MemberId
  memberSubs : AssocMap MemberId (List String)
  ceilLoad : Nat
  floorLoad : Nat
  floor_le : floorLoad ≤ ceilLoad

/-- The first partition of the donor that someone below the floor wants: `inr` with the
    move, `inl` if there is none. -/
def tryMove (g : Targets) (donor : MemberId) (unders : List MemberId) (a : Held) :
    List TopicPartition → List TopicPartition → List TopicPartition → Held ⊕ Held
  | [], keep, moved => .inl (AssocMap.insert donor (keep.reverse ++ moved) a)
  | tp :: rest, keep, moved =>
    match unders.filter fun mid => subscribed g.memberSubs mid (ofLex tp).1 with
    | [] => tryMove g donor unders a rest (tp :: keep) moved
    | taker :: _ => .inr (give taker tp (AssocMap.insert donor (keep.reverse ++ rest ++ moved) a))

/-- One round of the rebalancing: `inr` if it goes on. -/
def rebalanceStep (g : Targets) (a : Held) : Held ⊕ Held :=
  let overs := g.memberIds.filter fun mid => g.ceilLoad < (held a mid).length
  let unders := g.memberIds.filter fun mid => (held a mid).length < g.floorLoad
  match overs, unders with
  | donor :: _, _ :: _ => tryMove g donor unders a (held a donor) [] []
  | _, _ => .inl a

/-! ### Termination -/

theorem held_insert (a : Held) (mid mid' : MemberId) (tps : List TopicPartition) :
    held (AssocMap.insert mid tps a) mid' = if mid' = mid then tps else held a mid' := by
  unfold held
  rw [AssocMap.lookup_insert]
  split_ifs
  · rfl
  · rfl

theorem held_give (a : Held) (mid mid' : MemberId) (tp : TopicPartition) :
    held (give mid tp a) mid' = if mid' = mid then tp :: held a mid else held a mid' := by
  unfold held give
  rw [AssocMap.lookup_insertWith]
  split_ifs
  · cases AssocMap.lookup mid a
    · rfl
    · rfl
  · rfl

/-- A move takes one partition from the donor, and gives it to the first that wants it. -/
theorem tryMove_inr {g : Targets} {donor : MemberId} {unders : List MemberId} {a a' : Held} :
    ∀ {tps keep moved : List TopicPartition}, tryMove g donor unders a tps keep moved = .inr a' →
      ∃ l₁ tp l₂ taker rest, tps = l₁ ++ tp :: l₂ ∧
        unders.filter (fun mid => subscribed g.memberSubs mid (ofLex tp).1) = taker :: rest ∧
        a' = give taker tp (AssocMap.insert donor (keep.reverse ++ l₁ ++ l₂ ++ moved) a)
  | [], _, _, h => by cases h
  | tp :: tps, keep, moved, h => by
    rw [tryMove] at h
    split at h
    · obtain ⟨l₁, tp', l₂, taker, rest, rfl, hw, rfl⟩ := tryMove_inr h
      refine ⟨tp :: l₁, tp', l₂, taker, rest, rfl, hw, ?_⟩
      rw [List.reverse_cons, List.append_assoc _ [tp], List.singleton_append]
    · rename_i taker rest hw
      cases h
      exact ⟨[], tp, tps, taker, rest, rfl, hw, by rw [List.append_nil]⟩

/-- What the members have above the ceiling. -/
def excess (g : Targets) (a : Held) : Nat := (g.memberIds.map fun mid => (held a mid).length - g.ceilLoad).sum

variable {g : Targets} {a a' : Held}

/-- A round moves one partition, from a member above the ceiling to the first below the
    floor that wants it. -/
theorem rebalanceStep_inr (h : rebalanceStep g a = .inr a') :
    ∃ donor l₁ tp l₂ taker rest, donor ∈ g.memberIds ∧ held a donor = l₁ ++ tp :: l₂ ∧
      g.ceilLoad < (held a donor).length ∧
      (g.memberIds.filter fun mid => (held a mid).length < g.floorLoad).filter
        (fun mid => subscribed g.memberSubs mid (ofLex tp).1) = taker :: rest ∧
      a' = give taker tp (AssocMap.insert donor (l₁ ++ l₂) a) := by
  unfold rebalanceStep at h
  simp only at h
  split at h
  · rename_i donor overs under unders hovers hunders
    obtain ⟨l₁, tp, l₂, taker, rest, hheld, hw, rfl⟩ := tryMove_inr h
    have hdonor := List.mem_filter.1 (hovers ▸ List.mem_cons_self : donor ∈ g.memberIds.filter _)
    refine ⟨donor, l₁, tp, l₂, taker, rest, hdonor.1, hheld, ?_, hw, ?_⟩
    · simpa using hdonor.2
    · rw [List.reverse_nil, List.nil_append, List.append_nil]
  · cases h

/-- The one that takes is below the floor, and wants the partition. -/
theorem mem_takers {a : Held} {tp : TopicPartition} {taker : MemberId} {rest : List MemberId}
    (h : (g.memberIds.filter fun mid => (held a mid).length < g.floorLoad).filter
      (fun mid => subscribed g.memberSubs mid (ofLex tp).1) = taker :: rest) :
    taker ∈ g.memberIds ∧ (held a taker).length < g.floorLoad ∧ subscribed g.memberSubs taker (ofLex tp).1 = true := by
  have hmem : taker ∈ taker :: rest := List.mem_cons_self
  rw [← h] at hmem
  obtain ⟨hmem, hs⟩ := List.mem_filter.1 hmem
  obtain ⟨hmem, hunder⟩ := List.mem_filter.1 hmem
  exact ⟨hmem, by simpa using hunder, hs⟩

theorem excess_rebalanceStep (h : rebalanceStep g a = .inr a') :
    excess g a' < excess g a := by
  obtain ⟨donor, l₁, tp, l₂, taker, rest, hdonor, hheld, hover, htakers, rfl⟩ := rebalanceStep_inr h
  obtain ⟨-, hunder, -⟩ := mem_takers htakers
  have hfloor := g.floor_le
  have hne : donor ≠ taker := by
    rintro rfl
    omega
  have hload : ∀ mid, (held (give taker tp (AssocMap.insert donor (l₁ ++ l₂) a)) mid).length =
      if mid = taker then (held a taker).length + 1
      else if mid = donor then (held a donor).length - 1 else (held a mid).length := by
    intro mid
    rw [held_give, held_insert, held_insert, if_neg (Ne.symm hne)]
    split_ifs
    · rfl
    · rw [hheld]
      simp
    · rfl
  unfold excess
  refine List.sum_lt_sum _ _ (fun mid _ => ?_) ⟨donor, hdonor, ?_⟩
  · rw [hload]
    split_ifs with ht hd
    · subst ht
      omega
    · subst hd
      omega
    · exact Nat.le_refl _
  · rw [hload, if_neg hne, if_pos rfl]
    omega

/-! ### The assignor -/

def rebalance (g : Targets) (a : Held) : Held :=
  match _h : rebalanceStep g a with
  | .inl a' => a'
  | .inr a' => rebalance g a'
termination_by excess g a
decreasing_by exact excess_rebalanceStep _h

attribute [grind =] rebalance

theorem rebalance_inl (h : rebalanceStep g a = .inl a') : rebalance g a = a' := by
  rw [rebalance]
  split
  · rename_i a'' heq
    exact Sum.inl.inj (heq.symm.trans h)
  · rename_i a'' heq
    cases heq.symm.trans h

theorem rebalance_inr (h : rebalanceStep g a = .inr a') :
    rebalance g a = rebalance g a' := by
  rw [rebalance]
  split
  · rename_i a'' heq
    cases heq.symm.trans h
  · rename_i a'' heq
    rw [Sum.inr.inj (heq.symm.trans h)]

theorem floor_le_ceil (total n : Nat) : total / max 1 n ≤ (total + max 1 n - 1) / max 1 n :=
  Nat.div_le_div_right (by omega)

/-- The partitions that should exist this generation. -/
def existing (topicParts : TopicParts) : AssocMap TopicPartition Unit :=
  AssocMap.fromList (topicParts.flatMap fun e => e.2.map fun p => (toLex (e.1, p), ()))

/-- What every member keeps. -/
def startAcc (members : Subscriptions) (topicParts : TopicParts) (prev : Assignment) : Held :=
  let memberOrder := sortOn Prod.fst members
  let memberSubs := AssocMap.fromList memberOrder
  AssocMap.fromList (memberOrder.map fun m => (m.1, kept memberSubs (existing topicParts) prev m.1))

/-- The partitions that nobody keeps. -/
def stillUnassigned (topicParts : TopicParts) (start : Held) : List TopicPartition :=
  let owned : AssocMap TopicPartition Unit :=
    start.foldr (fun e m => e.2.foldr (fun tp m' => AssocMap.insert tp () m') m) []
  ((existing topicParts).map Prod.fst).filter fun tp => ¬ (AssocMap.lookup tp owned).isSome

def stickyAssign (members : Subscriptions) (topicParts : TopicParts) : Option Assignment → Assignment
  | none => roundRobinAssign members topicParts
  | some prev =>
    let memberOrder := sortOn Prod.fst members
    let memberIds := memberOrder.map Prod.fst
    let start := startAcc members topicParts prev
    let afterHandout := handout members start (stillUnassigned topicParts start)
    let totalParts := (existing topicParts).length
    let n := max 1 memberIds.length
    let finalAcc := rebalance
      { memberIds := memberIds
        memberSubs := AssocMap.fromList memberOrder
        ceilLoad := (totalParts + n - 1) / n
        floorLoad := totalParts / n
        floor_le := floor_le_ceil totalParts memberIds.length } afterHandout
    memberIds.map fun mid => (mid, groupByTopicSorted (held finalAcc mid))

end Wireform.Kafka.Assignor
