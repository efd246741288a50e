/-
  The assignors give every partition to one member that wants it (`Exact`).

  * `exact_rangeAssign`, `exact_roundRobinAssign`;
  * `exact_stickyAssign`: the sticky assignor does so exactly if the partitions that the
    members keep are all different (`claims`).
-/
import Wireform.Kafka.Assignor.Model

namespace Wireform.Kafka.Assignor

/-! ## Assignments -/

/-- The partitions of a list of topics. -/
def partitions (es : List (String × List Int)) : List TopicPartition :=
  es.flatMap fun e => e.2.map fun p => toLex (e.1, p)

/-- Who is given what. -/
def given (a : Assignment) : List (MemberId × TopicPartition) :=
  a.flatMap fun m => (partitions m.2).map (Prod.mk m.1)

/-- The member subscribes to the topic. -/
def Wants (members : Subscriptions) (mid : MemberId) (t : String) : Prop :=
  ∃ m ∈ members, m.1 = mid ∧ t ∈ m.2

instance (members : Subscriptions) (mid : MemberId) (t : String) : Decidable (Wants members mid t) :=
  inferInstanceAs (Decidable (∃ m ∈ members, m.1 = mid ∧ t ∈ m.2))

/-- The topic has a subscriber. -/
def Wanted (members : Subscriptions) (t : String) : Prop := ∃ m ∈ members, t ∈ m.2

instance (members : Subscriptions) (t : String) : Decidable (Wanted members t) :=
  inferInstanceAs (Decidable (∃ m ∈ members, t ∈ m.2))

/-- Every partition of a topic with a subscriber is given once, to a subscriber, and
    nothing else is given. -/
structure Exact (members : Subscriptions) (topicParts : TopicParts) (a : Assignment) : Prop where
  everyone : (a.map Prod.fst).Perm (members.map Prod.fst)
  once : ((given a).map Prod.snd).Nodup
  wanted : ∀ e ∈ given a, Wants members e.1 (ofLex e.2).1 ∧ e.2 ∈ partitions topicParts
  all : ∀ tp ∈ partitions topicParts, Wanted members (ofLex tp).1 → tp ∈ (given a).map Prod.snd

/-- What is put in: members with different ids, a map, and different partitions. -/
structure Input (members : Subscriptions) (topicParts : TopicParts) : Prop where
  ids : (members.map Prod.fst).Nodup
  topics : AssocMap.Ascending topicParts
  parts : ∀ e ∈ topicParts, e.2.Nodup

section
variable {α κ : Type} [LinearOrder κ]

theorem perm_sortOn (f : α → κ) (xs : List α) : (sortOn f xs).Perm xs := List.perm_insertionSort _ _

theorem pairwise_sortOn (f : α → κ) (xs : List α) : (sortOn f xs).Pairwise fun a b => f a ≤ f b :=
  List.pairwise_insertionSort _ _

end

variable {members : Subscriptions} {topicParts : TopicParts} {prev : Assignment} {mid : MemberId} {t : String}
  {tp : TopicPartition} {ids : List MemberId} {acc : Held} {subs : AssocMap MemberId (List String)}

theorem Input.nodup_partitions (h : Input members topicParts) : (partitions topicParts).Nodup := by
  refine List.nodup_flatMap.2 ⟨fun e he => ?_, ?_⟩
  · exact (h.parts e he).map fun p q hpq => (Prod.mk.inj (toLex.injective hpq)).2
  · refine h.topics.imp fun {e e'} hlt => ?_
    intro tp htp htp'
    obtain ⟨p, -, rfl⟩ := List.mem_map.1 htp
    obtain ⟨q, -, hpq⟩ := List.mem_map.1 htp'
    exact absurd (Prod.mk.inj (toLex.injective hpq)).1 hlt.ne'

/-! ### Subscriptions -/

theorem subscribed_iff {order : Subscriptions} (hperm : order.Perm members) (hd : (members.map Prod.fst).Nodup) :
    subscribed (AssocMap.fromList order) mid t = true ↔ Wants members mid t := by
  have hd' : (order.map Prod.fst).Nodup := (hperm.map Prod.fst).nodup_iff.2 hd
  unfold subscribed
  constructor
  · intro h
    split at h
    · rename_i ts hts
      exact ⟨(mid, ts), hperm.mem_iff.1 (AssocMap.mem_of_lookup_fromList hts), rfl, by simpa using h⟩
    · cases h
  · rintro ⟨⟨mid', ts⟩, hm, rfl, ht⟩
    rw [AssocMap.lookup_fromList_of_mem hd' (hperm.mem_iff.2 hm)]
    simpa using ht

theorem Wants.wanted (h : Wants members mid t) : Wanted members t := by
  obtain ⟨m, hm, -, ht⟩ := h
  exact ⟨m, hm, ht⟩

theorem Wants.mem (h : Wants members mid t) : mid ∈ members.map Prod.fst := by
  obtain ⟨m, hm, rfl, -⟩ := h
  exact List.mem_map_of_mem hm

theorem wanted_iff : Wanted members t ↔ ∃ mid, Wants members mid t := by
  constructor
  · rintro ⟨m, hm, ht⟩
    exact ⟨m.1, m, hm, rfl, ht⟩
  · rintro ⟨mid, h⟩
    exact h.wanted

/-! ### One member gets more -/

theorem flatMap_perm {ι α : Type} {l : List ι} {m : ι} (hd : l.Nodup) (hm : m ∈ l) {f g : ι → List α} (xs : List α)
    (hself : (g m).Perm (xs ++ f m)) (hother : ∀ i ∈ l, i ≠ m → g i = f i) :
    (l.flatMap g).Perm (xs ++ l.flatMap f) := by
  induction l with
  | nil => cases hm
  | cons i is ih =>
    obtain ⟨hi, hd⟩ := List.nodup_cons.1 hd
    simp only [List.flatMap_cons]
    by_cases him : i = m
    · subst him
      have hrest : is.flatMap g = is.flatMap f := by
        refine List.flatMap_congr fun j hj => hother j (List.mem_cons_of_mem _ hj) ?_
        rintro rfl
        exact hi hj
      rw [hrest, ← List.append_assoc]
      exact hself.append_right _
    · rw [hother i List.mem_cons_self him]
      have hmem := (List.mem_cons.1 hm).resolve_left (Ne.symm him)
      have hrest := ih hd hmem fun j hj => hother j (List.mem_cons_of_mem _ hj)
      exact (hrest.append_left (f i)).trans (List.perm_append_comm_assoc _ _ _)

/-- What all members have. -/
def allHeld (ids : List MemberId) (acc : Held) : List TopicPartition := ids.flatMap (held acc)

theorem allHeld_give (hd : ids.Nodup) (hm : mid ∈ ids) (tp : TopicPartition) (acc : Held) :
    (allHeld ids (give mid tp acc)).Perm (tp :: allHeld ids acc) := by
  refine flatMap_perm hd hm [tp] ?_ fun i _ hi => ?_
  · rw [held_give, if_pos rfl]
    exact List.Perm.refl _
  · rw [held_give, if_neg hi]

theorem allHeld_move {donor taker : MemberId} {l₁ l₂ : List TopicPartition} (hd : ids.Nodup) (hdonor : donor ∈ ids)
    (htaker : taker ∈ ids) (hheld : held acc donor = l₁ ++ tp :: l₂) :
    (allHeld ids (give taker tp (AssocMap.insert donor (l₁ ++ l₂) acc))).Perm (allHeld ids acc) := by
  refine (allHeld_give hd htaker tp _).trans (List.Perm.symm ?_)
  refine flatMap_perm hd hdonor [tp] ?_ fun i _ hi => ?_
  · rw [held_insert, if_pos rfl, hheld]
    exact List.perm_middle
  · rw [held_insert, if_neg hi]

/-! ### Grouping by topic -/

theorem perm_partitions_insertWith {m : AssocMap String (List Int)} (h : AssocMap.Ascending m) (t : String)
    (p : Int) : (partitions (AssocMap.insertWith (· ++ ·) t [p] m)).Perm (toLex (t, p) :: partitions m) := by
  unfold AssocMap.insertWith
  split
  · rename_i old hold
    refine ((h.perm_insert t _).flatMap_right _).trans (List.Perm.symm ?_)
    refine List.Perm.cons _ ((h.perm_of_lookup hold).flatMap_right _)
  · rename_i hnone
    refine ((h.perm_insert t _).flatMap_right _).trans (List.Perm.cons _ (List.Perm.of_eq ?_))
    have hself : m.filter (fun e => e.1 ≠ t) = m := by
      refine List.filter_eq_self.2 fun e he => ?_
      simp only [ne_eq, decide_not, Bool.not_eq_true', decide_eq_false_iff_not]
      rintro rfl
      rw [(h.mem_iff e.1 e.2).1 he] at hnone
      cases hnone
    rw [hself]
    rfl

theorem perm_groupByTopicSorted (xs : List TopicPartition) : (partitions (groupByTopicSorted xs)).Perm xs := by
  have hfold : ∀ (xs : List TopicPartition) (m : AssocMap String (List Int)), AssocMap.Ascending m →
      (partitions (xs.foldl (fun m tp =>
        AssocMap.insertWith (· ++ ·) (ofLex tp).1 [(ofLex tp).2] m) m)).Perm (xs ++ partitions m) := by
    intro xs
    induction xs with
    | nil => exact fun m _ => List.Perm.refl _
    | cons tp xs ih =>
      intro m hm
      refine (ih _ (hm.insertWith _ _ _)).trans ?_
      refine ((perm_partitions_insertWith hm _ _).append_left xs).trans ?_
      exact List.perm_middle
  unfold groupByTopicSorted partitions
  rw [List.flatMap_map]
  refine (List.Perm.flatMap_left _ fun e _ => (perm_sortOn id e.2).map _).trans ?_
  have h := hfold xs [] List.Pairwise.nil
  rwa [partitions, partitions, List.flatMap_nil, List.append_nil] at h

/-! ### Assignments that list the members -/

section
variable {f : MemberId → List (String × List Int)}

theorem mem_given_map {e : MemberId × TopicPartition} :
    e ∈ given (ids.map fun mid => (mid, f mid)) ↔ e.1 ∈ ids ∧ e.2 ∈ partitions (f e.1) := by
  unfold given
  rw [List.flatMap_map, List.mem_flatMap]
  constructor
  · rintro ⟨mid, hmid, he⟩
    obtain ⟨tp, htp, rfl⟩ := List.mem_map.1 he
    exact ⟨hmid, htp⟩
  · rintro ⟨hmid, htp⟩
    exact ⟨e.1, hmid, List.mem_map.2 ⟨e.2, htp, rfl⟩⟩

theorem given_map : (given (ids.map fun mid => (mid, f mid))).map Prod.snd = ids.flatMap fun mid => partitions (f mid) := by
  unfold given
  rw [List.flatMap_map, List.map_flatMap]
  refine List.flatMap_congr fun mid _ => ?_
  rw [List.map_map]
  exact List.map_id _

/-- What the members have is wanted, and complete. -/
theorem exact_map (hids : ids.Perm (members.map Prod.fst))
    (hwanted : ∀ mid ∈ ids, ∀ tp ∈ partitions (f mid),
      Wants members mid (ofLex tp).1 ∧ tp ∈ partitions topicParts)
    (hall : ∀ tp ∈ partitions topicParts, Wanted members (ofLex tp).1 →
      tp ∈ ids.flatMap fun mid => partitions (f mid)) :
    Exact members topicParts (ids.map fun mid => (mid, f mid)) ↔
      (ids.flatMap fun mid => partitions (f mid)).Nodup := by
  constructor
  · intro h
    have hd := h.once
    rwa [given_map] at hd
  · intro h
    constructor
    · rw [List.map_map]
      exact (List.Perm.of_eq (List.map_id ids)).trans hids
    · rw [given_map]
      exact h
    · intro e he
      obtain ⟨hmid, htp⟩ := mem_given_map.1 he
      exact hwanted e.1 hmid e.2 htp
    · intro tp htp hw
      rw [given_map]
      exact hall tp htp hw

end

/-- The assignment of what the members have. -/
def grouped (ids : List MemberId) (acc : Held) : Assignment :=
  ids.map fun mid => (mid, groupByTopicSorted (held acc mid))

theorem exact_grouped (hids : ids.Perm (members.map Prod.fst))
    (hwanted : ∀ mid ∈ ids, ∀ tp ∈ held acc mid, Wants members mid (ofLex tp).1 ∧ tp ∈ partitions topicParts)
    (hall : ∀ tp ∈ partitions topicParts, Wanted members (ofLex tp).1 → tp ∈ allHeld ids acc) :
    Exact members topicParts (grouped ids acc) ↔ (allHeld ids acc).Nodup := by
  have hperm : (ids.flatMap fun mid => partitions (groupByTopicSorted (held acc mid))).Perm (allHeld ids acc) :=
    List.Perm.flatMap_left _ fun mid _ => perm_groupByTopicSorted _
  rw [← hperm.nodup_iff]
  refine exact_map hids (fun mid hmid tp htp => ?_) fun tp htp hw => hperm.mem_iff.2 (hall tp htp hw)
  exact hwanted mid hmid tp ((perm_groupByTopicSorted _).mem_iff.1 htp)

/-! ## Round robin -/

theorem findEligible_none {start : Nat} (h : findEligible ids subs start t = none) :
    ∀ mid ∈ ids, subscribed subs mid t = false := by
  intro mid hmid
  obtain ⟨j, hj, rfl⟩ := List.getElem_of_mem hmid
  unfold findEligible at h
  rw [List.findSome?_eq_none_iff] at h
  -- the round that comes to the place of the member
  have hpos : 0 < ids.length := Nat.lt_of_le_of_lt (Nat.zero_le j) hj
  have hround : (start + (j + ids.length - start % ids.length) % ids.length) % ids.length = j := by
    have hlt := Nat.mod_lt start hpos
    have hdiv := Nat.div_add_mod start ids.length
    have hsum : start + (j + ids.length - start % ids.length) = j + ids.length * (start / ids.length + 1) := by
      rw [Nat.mul_succ]
      omega
    rw [Nat.add_mod_mod, hsum, Nat.add_mul_mod_self_left, Nat.mod_eq_of_lt hj]
  have hk := h _ (List.mem_range.2 (Nat.mod_lt (j + ids.length - start % ids.length) hpos))
  simp only [hround, List.getD_eq_getElem?_getD, List.getElem?_eq_getElem hj, Option.getD_some] at hk
  split_ifs at hk with hs
  exact Bool.eq_false_iff.2 hs

theorem findEligible_some {start i : Nat} (h : findEligible ids subs start t = some (i, mid)) :
    mid ∈ ids ∧ subscribed subs mid t = true := by
  unfold findEligible at h
  obtain ⟨k, hk, h⟩ := List.exists_of_findSome?_eq_some h
  simp only at h
  split_ifs at h with hs
  cases h
  have hlt : (start + k) % ids.length < ids.length :=
    Nat.mod_lt _ (Nat.lt_of_le_of_lt (Nat.zero_le k) (List.mem_range.1 hk))
  refine ⟨?_, hs⟩
  rw [List.getD_eq_getElem?_getD, List.getElem?_eq_getElem hlt]
  exact List.getElem_mem hlt

/-- Some member wants the partition. -/
def anyWants (ids : List MemberId) (subs : AssocMap MemberId (List String)) (tp : TopicPartition) : Bool :=
  ids.any fun mid => subscribed subs mid (ofLex tp).1

theorem allHeld_assignLoop (subs : AssocMap MemberId (List String)) (hd : ids.Nodup) (tps : List TopicPartition) (cur : Nat) (acc : Held) :
    (allHeld ids (assignLoop ids subs cur tps acc)).Perm
      (tps.filter (anyWants ids subs) ++ allHeld ids acc) := by
  induction tps generalizing cur acc with
  | nil => exact List.Perm.refl _
  | cons tp tps ih =>
    unfold assignLoop
    split
    · rename_i hnone
      have hnot : anyWants ids subs tp = false :=
        List.any_eq_false.2 fun mid hmid => by rw [findEligible_none hnone mid hmid]; exact Bool.false_ne_true
      rw [List.filter_cons_of_neg (by rw [hnot]; exact Bool.false_ne_true)]
      exact ih cur acc
    · rename_i i mid hsome
      obtain ⟨hmid, hs⟩ := findEligible_some hsome
      have hyes : anyWants ids subs tp = true := List.any_eq_true.2 ⟨mid, hmid, hs⟩
      rw [List.filter_cons_of_pos hyes]
      refine (ih _ _).trans (((allHeld_give hd hmid tp acc).append_left _).trans ?_)
      exact List.perm_middle

/-- Every member wants what it has. -/
def Suits (subs : AssocMap MemberId (List String)) (listed : List TopicPartition) (acc : Held) : Prop :=
  ∀ mid, ∀ tp ∈ held acc mid, subscribed subs mid (ofLex tp).1 = true ∧ tp ∈ listed

theorem Suits.give {listed : List TopicPartition} (h : Suits subs listed acc)
    (hs : subscribed subs mid (ofLex tp).1 = true) (htp : tp ∈ listed) : Suits subs listed (give mid tp acc) := by
  intro mid' tp' htp'
  rw [held_give] at htp'
  split_ifs at htp' with hmid
  · rw [hmid]
    rcases List.mem_cons.1 htp' with rfl | htp'
    · exact ⟨hs, htp⟩
    · exact h mid tp' htp'
  · exact h mid' tp' htp'

variable {listed : List TopicPartition} {g : Targets}

theorem suits_assignLoop (tps : List TopicPartition) (htps : ∀ tp ∈ tps, tp ∈ listed)
    (cur : Nat) (acc : Held) (h : Suits subs listed acc) : Suits subs listed (assignLoop ids subs cur tps acc) := by
  induction tps generalizing cur acc with
  | nil => exact h
  | cons tp tps ih =>
    have hrest : ∀ tp ∈ tps, tp ∈ listed := fun tp' htp' => htps tp' (List.mem_cons_of_mem _ htp')
    unfold assignLoop
    split
    · exact ih hrest cur acc h
    · rename_i i mid hsome
      exact ih hrest _ _ (h.give (findEligible_some hsome).2 (htps tp List.mem_cons_self))

theorem suits_nil (listed : List TopicPartition) : Suits subs listed [] := by
  intro mid tp htp
  cases htp

theorem perm_order (members : Subscriptions) : (sortOn Prod.fst members).Perm members := perm_sortOn _ _

theorem perm_ids (members : Subscriptions) :
    ((sortOn Prod.fst members).map Prod.fst).Perm (members.map Prod.fst) := (perm_order members).map _

theorem anyWants_iff (hin : Input members topicParts) :
    anyWants ((sortOn Prod.fst members).map Prod.fst) (AssocMap.fromList (sortOn Prod.fst members)) tp = true ↔
      Wanted members (ofLex tp).1 := by
  unfold anyWants
  rw [List.any_eq_true, wanted_iff]
  constructor
  · rintro ⟨mid, -, hs⟩
    exact ⟨mid, (subscribed_iff (perm_order members) hin.ids).1 hs⟩
  · rintro ⟨mid, hw⟩
    exact ⟨mid, (perm_ids members).mem_iff.2 hw.mem, (subscribed_iff (perm_order members) hin.ids).2 hw⟩

theorem perm_sortedPairs (topicParts : TopicParts) :
    ((sortOn Prod.fst topicParts).flatMap fun e => (sortOn id e.2).map fun p => toLex (e.1, p)).Perm
      (partitions topicParts) := by
  refine (List.Perm.flatMap_left _ fun e _ => (perm_sortOn id e.2).map _).trans ?_
  exact (perm_sortOn Prod.fst topicParts).flatMap_right _

theorem exact_roundRobinAssign (hin : Input members topicParts) :
    Exact members topicParts (roundRobinAssign members topicParts) := by
  have hd := (perm_ids members).nodup_iff.2 hin.ids
  have hpairs := perm_sortedPairs topicParts
  have hheld := allHeld_assignLoop (AssocMap.fromList (sortOn Prod.fst members)) hd
    ((sortOn Prod.fst topicParts).flatMap fun e => (sortOn id e.2).map fun p => toLex (e.1, p)) 0 []
  have hnil : allHeld ((sortOn Prod.fst members).map Prod.fst) [] = [] :=
    List.flatMap_eq_nil_iff.2 fun _ _ => rfl
  rw [hnil, List.append_nil] at hheld
  refine (exact_grouped (perm_ids members) (fun mid _ tp htp => ?_) fun tp htp hw => ?_).2 ?_
  · obtain ⟨hs, hl⟩ := suits_assignLoop _ (fun tp htp => hpairs.mem_iff.1 htp) 0 [] (suits_nil _) mid tp htp
    exact ⟨(subscribed_iff (perm_order members) hin.ids).1 hs, hl⟩
  · exact hheld.mem_iff.2 (List.mem_filter.2 ⟨hpairs.mem_iff.2 htp, (anyWants_iff hin).2 hw⟩)
  · exact hheld.nodup_iff.2 ((hpairs.nodup_iff.2 hin.nodup_partitions).filter _)

/-! ## Sticky -/

/-- What a member had of the partitions there are, and still wants. -/
def claims (members : Subscriptions) (topicParts : TopicParts) (prev : Assignment) (mid : MemberId) :
    List TopicPartition :=
  ((prev.lookup mid).getD []).flatMap fun e =>
    (e.2.map fun p => toLex (e.1, p)).filter fun tp => Wants members mid e.1 ∧ tp ∈ partitions topicParts

theorem ascending_existing (topicParts : TopicParts) : AssocMap.Ascending (existing topicParts) :=
  AssocMap.ascending_fromList _

theorem map_fst_pairs (es : List (String × List Int)) :
    (es.flatMap fun e => e.2.map fun p => ((toLex (e.1, p) : TopicPartition), ())).map Prod.fst = partitions es := by
  rw [List.map_flatMap]
  refine List.flatMap_congr fun e _ => ?_
  rw [List.map_map]
  rfl

theorem lookup_existing : (AssocMap.lookup tp (existing topicParts)).isSome = true ↔ tp ∈ partitions topicParts := by
  unfold existing
  rw [Option.isSome_iff_exists, ← map_fst_pairs]
  constructor
  · rintro ⟨v, hv⟩
    exact List.mem_map.2 ⟨_, AssocMap.mem_of_lookup_fromList hv, rfl⟩
  · exact fun h => AssocMap.exists_lookup_fromList h

theorem mem_keys_existing : tp ∈ (existing topicParts).map Prod.fst ↔ tp ∈ partitions topicParts := by
  rw [← lookup_existing, (ascending_existing topicParts).key_iff, Option.isSome_iff_exists]

theorem perm_existing (hin : Input members topicParts) :
    ((existing topicParts).map Prod.fst).Perm (partitions topicParts) :=
  (List.perm_ext_iff_of_nodup ((ascending_existing topicParts).nodup_keys) hin.nodup_partitions).2
    fun _ => mem_keys_existing

theorem kept_eq {order : Subscriptions} (hperm : order.Perm members) (hd : (members.map Prod.fst).Nodup) :
    kept (AssocMap.fromList order) (existing topicParts) prev mid = claims members topicParts prev mid := by
  have hsubs : ∀ t, t ∈ (AssocMap.lookup mid (AssocMap.fromList order)).getD [] ↔ Wants members mid t := by
    intro t
    rw [← subscribed_iff hperm hd]
    unfold subscribed
    split
    · rename_i ts hts
      rw [hts]
      simp
    · rename_i hnone
      rw [hnone]
      simp
  unfold kept claims
  refine List.flatMap_congr fun e _ => ?_
  by_cases hw : Wants members mid e.1
  · rw [if_pos ((hsubs e.1).2 hw)]
    refine List.filter_congr fun tp _ => ?_
    rw [Bool.eq_iff_iff, lookup_existing, decide_eq_true_iff, and_iff_right hw]
  · rw [if_neg fun h => hw ((hsubs e.1).1 h)]
    refine (List.filter_eq_nil_iff.2 fun tp _ => ?_).symm
    simp [hw]

/-- The keys of the accumulator are the members. -/
structure HasKeys (ids : List MemberId) (acc : Held) : Prop where
  ascending : AssocMap.Ascending acc
  keys : ∀ mid, mid ∈ acc.map Prod.fst ↔ mid ∈ ids

theorem HasKeys.insert (h : HasKeys ids acc) (hm : mid ∈ ids) (tps : List TopicPartition) :
    HasKeys ids (AssocMap.insert mid tps acc) := by
  refine ⟨h.ascending.insert _ _, fun mid' => ?_⟩
  rw [(h.ascending.insert _ _).key_iff, AssocMap.lookup_insert, ← h.keys, h.ascending.key_iff]
  split_ifs with heq
  · subst heq
    exact iff_of_true ⟨_, rfl⟩ ((h.ascending.key_iff _).1 ((h.keys _).2 hm))
  · rfl

theorem HasKeys.give (h : HasKeys ids acc) (hm : mid ∈ ids) (tp : TopicPartition) : HasKeys ids (give mid tp acc) := by
  unfold Assignor.give AssocMap.insertWith
  split
  · exact h.insert hm _
  · exact h.insert hm _

theorem hasKeys_startAcc (members : Subscriptions) (topicParts : TopicParts) (prev : Assignment) :
    HasKeys ((sortOn Prod.fst members).map Prod.fst) (startAcc members topicParts prev) := by
  refine ⟨AssocMap.ascending_fromList _, fun mid => ?_⟩
  unfold startAcc
  rw [(AssocMap.ascending_fromList _).key_iff]
  constructor
  · rintro ⟨v, hv⟩
    obtain ⟨m, hm, heq⟩ := List.mem_map.1 (AssocMap.mem_of_lookup_fromList hv)
    cases heq
    exact List.mem_map_of_mem hm
  · intro hmid
    refine AssocMap.exists_lookup_fromList ?_
    rw [List.map_map]
    exact hmid

theorem held_startAcc (hd : (members.map Prod.fst).Nodup) (hmid : mid ∈ members.map Prod.fst) :
    held (startAcc members topicParts prev) mid = claims members topicParts prev mid := by
  obtain ⟨m, hm, rfl⟩ := List.mem_map.1 ((perm_ids members).mem_iff.2 hmid)
  have hnodup : ((sortOn Prod.fst members).map fun m => (m.1,
      kept (AssocMap.fromList (sortOn Prod.fst members)) (existing topicParts) prev m.1)).map Prod.fst |>.Nodup := by
    rw [List.map_map]
    exact (perm_ids members).nodup_iff.2 hd
  have hlookup := AssocMap.lookup_fromList_of_mem hnodup (List.mem_map_of_mem hm)
  unfold held startAcc
  rw [hlookup, Option.getD_some]
  exact kept_eq (perm_order members) hd

theorem held_eq_nil (h : HasKeys ids acc) (hmid : mid ∉ ids) : held acc mid = [] := by
  unfold held
  rw [AssocMap.lookup_eq_none fun hk => hmid ((h.keys mid).1 hk)]
  rfl

theorem suits_startAcc (hin : Input members topicParts) :
    Suits (AssocMap.fromList members) (partitions topicParts) (startAcc members topicParts prev) := by
  intro mid tp htp
  by_cases hmid : mid ∈ members.map Prod.fst
  · rw [held_startAcc hin.ids hmid] at htp
    obtain ⟨e, -, htp⟩ := List.mem_flatMap.1 htp
    obtain ⟨htp, hf⟩ := List.mem_filter.1 htp
    obtain ⟨p, -, rfl⟩ := List.mem_map.1 htp
    obtain ⟨hw, hl⟩ := of_decide_eq_true hf
    exact ⟨(subscribed_iff (List.Perm.refl _) hin.ids).2 hw, hl⟩
  · rw [held_eq_nil (hasKeys_startAcc members topicParts prev) fun h => hmid ((perm_ids members).mem_iff.1 h)] at htp
    cases htp

theorem lookup_owned (acc : Held) (tp : TopicPartition) :
    (AssocMap.lookup tp (acc.foldr (fun e m => e.2.foldr (fun tp m' => AssocMap.insert tp () m') m)
      ([] : AssocMap TopicPartition Unit))).isSome = true ↔ ∃ e ∈ acc, tp ∈ e.2 := by
  have hone : ∀ (tps : List TopicPartition) (m : AssocMap TopicPartition Unit),
      (AssocMap.lookup tp (tps.foldr (fun tp m' => AssocMap.insert tp () m') m)).isSome = true ↔
        tp ∈ tps ∨ (AssocMap.lookup tp m).isSome = true := by
    intro tps m
    induction tps with
    | nil => simp
    | cons tp' tps ih =>
      rw [List.foldr_cons, AssocMap.lookup_insert, List.mem_cons]
      split_ifs with heq
      · simp [heq]
      · rw [ih]
        simp [heq]
  induction acc with
  | nil => simp
  | cons e acc ih =>
    rw [List.foldr_cons, hone]
    refine (or_congr_right ih).trans ?_
    simp

theorem mem_stillUnassigned (h : HasKeys ids acc) :
    tp ∈ stillUnassigned topicParts acc ↔ tp ∈ partitions topicParts ∧ tp ∉ allHeld ids acc := by
  unfold stillUnassigned
  simp only
  rw [List.mem_filter, mem_keys_existing, decide_eq_true_iff, lookup_owned]
  refine and_congr_right fun _ => not_congr ?_
  unfold allHeld
  rw [List.mem_flatMap]
  constructor
  · rintro ⟨e, he, htp⟩
    refine ⟨e.1, (h.keys e.1).1 (List.mem_map_of_mem he), ?_⟩
    unfold held
    rw [(h.ascending.mem_iff e.1 e.2).1 he]
    exact htp
  · rintro ⟨mid, -, htp⟩
    unfold held at htp
    cases hl : AssocMap.lookup mid acc with
    | none =>
      rw [hl] at htp
      cases htp
    | some tps =>
      rw [hl] at htp
      exact ⟨(mid, tps), AssocMap.mem_of_lookup hl, htp⟩

theorem nodup_stillUnassigned (acc : Held) : (stillUnassigned topicParts acc).Nodup :=
  ((ascending_existing topicParts).nodup_keys).filter _

/-! ### Handing out -/

theorem ids_of_keys (h : HasKeys ids acc) (hids : ids.Pairwise (· < ·)) : sortOn id (acc.map Prod.fst) = ids := by
  have hkeys : (acc.map Prod.fst).Pairwise (· < ·) := List.pairwise_map.2 h.ascending
  have hsort : sortOn id (acc.map Prod.fst) = acc.map Prod.fst :=
    (hkeys.imp fun {a b} (hlt : a < b) => hlt.le).insertionSort_eq
  rw [hsort]
  refine List.Perm.eq_of_pairwise (fun a b _ _ h1 h2 => absurd h1 (lt_asymm h2)) hkeys hids ?_
  exact (List.perm_ext_iff_of_nodup (hkeys.imp fun {_ _} hlt => hlt.ne) (hids.imp fun {_ _} hlt => hlt.ne)).2 h.keys

/-- A member that the next partition may go to. -/
structure Takes (ids : List MemberId) (subs : AssocMap MemberId (List String)) (acc : Held) (tp : TopicPartition)
    (mid : MemberId) : Prop where
  mem : mid ∈ ids
  wants : subscribed subs mid (ofLex tp).1 = true
  /-- It has the least load, and the least id among these. -/
  least : ∀ mid' ∈ ids, subscribed subs mid' (ofLex tp).1 = true →
    toLex ((held acc mid).length, mid) ≤ toLex ((held acc mid').length, mid')

theorem handout_cons (members : Subscriptions) (h : HasKeys ids acc) (hids : ids.Pairwise (· < ·)) (tp : TopicPartition)
    (rest : List TopicPartition) :
    (anyWants ids (AssocMap.fromList members) tp = false ∧
        handout members acc (tp :: rest) = handout members acc rest) ∨
      anyWants ids (AssocMap.fromList members) tp = true ∧
        ∃ mid, Takes ids (AssocMap.fromList members) acc tp mid ∧
          handout members acc (tp :: rest) = handout members (give mid tp acc) rest := by
  have hperm := perm_sortOn id ((ids.filter fun mid =>
    subscribed (AssocMap.fromList members) mid (ofLex tp).1).map fun mid => toLex ((held acc mid).length, mid))
  have hsorted := pairwise_sortOn id ((ids.filter fun mid =>
    subscribed (AssocMap.fromList members) mid (ofLex tp).1).map fun mid => toLex ((held acc mid).length, mid))
  rw [handout]
  simp only [ids_of_keys h hids]
  revert hperm hsorted
  generalize hc : sortOn id ((ids.filter fun mid =>
    subscribed (AssocMap.fromList members) mid (ofLex tp).1).map
      fun mid => toLex ((held acc mid).length, mid)) = candidates
  intro hperm hsorted
  cases candidates with
  | nil =>
    refine Or.inl ⟨List.any_eq_false.2 fun mid hmid hs => ?_, rfl⟩
    have hmem := hperm.mem_iff.2 (List.mem_map_of_mem (List.mem_filter.2 ⟨hmid, hs⟩))
    cases hmem
  | cons c cs =>
    obtain ⟨mid, hmid, rfl⟩ := List.mem_map.1 (hperm.mem_iff.1 List.mem_cons_self)
    obtain ⟨hmem, hs⟩ := List.mem_filter.1 hmid
    refine Or.inr ⟨List.any_eq_true.2 ⟨mid, hmem, hs⟩, mid, ⟨hmem, hs, fun mid' hmid' hs' => ?_⟩, rfl⟩
    have hmem' := hperm.mem_iff.2 (List.mem_map_of_mem (f := fun mid => toLex ((held acc mid).length, mid))
      (List.mem_filter.2 ⟨hmid', hs'⟩))
    rcases List.mem_cons.1 hmem' with heq | hmem'
    · exact le_of_eq heq.symm
    · exact (List.pairwise_cons.1 hsorted).1 _ hmem'

theorem allHeld_handout (hids : ids.Pairwise (· < ·)) (tps : List TopicPartition) (h : HasKeys ids acc) :
    (allHeld ids (handout members acc tps)).Perm
      (tps.filter (anyWants ids (AssocMap.fromList members)) ++ allHeld ids acc) := by
  induction tps generalizing acc with
  | nil => exact List.Perm.refl _
  | cons tp tps ih =>
    rcases handout_cons members h hids tp tps with ⟨hnot, heq⟩ | ⟨hany, mid, htakes, heq⟩
    · rw [heq, List.filter_cons_of_neg (by rw [hnot]; exact Bool.false_ne_true)]
      exact ih h
    · rw [heq, List.filter_cons_of_pos hany]
      have hgive := allHeld_give (hids.imp fun {_ _} hlt => hlt.ne) htakes.mem tp acc
      exact (ih (h.give htakes.mem tp)).trans ((hgive.append_left _).trans List.perm_middle)

theorem suits_handout (members : Subscriptions) (hids : ids.Pairwise (· < ·)) (tps : List TopicPartition)
    (htps : ∀ tp ∈ tps, tp ∈ listed) (h : HasKeys ids acc)
    (hsuits : Suits (AssocMap.fromList members) listed acc) :
    Suits (AssocMap.fromList members) listed (handout members acc tps) := by
  induction tps generalizing acc with
  | nil => exact hsuits
  | cons tp tps ih =>
    have hrest : ∀ tp ∈ tps, tp ∈ listed := fun tp' htp' => htps tp' (List.mem_cons_of_mem _ htp')
    rcases handout_cons members h hids tp tps with ⟨-, heq⟩ | ⟨-, mid, htakes, heq⟩
    · rw [heq]
      exact ih hrest h hsuits
    · rw [heq]
      exact ih hrest (h.give htakes.mem tp) (hsuits.give htakes.wants (htps tp List.mem_cons_self))

/-! ### Rebalancing -/

theorem held_tryMove_inl {g : Targets} {donor : MemberId} {unders : List MemberId} {a a' : Held} :
    ∀ {tps keep moved : List TopicPartition}, tryMove g donor unders a tps keep moved = .inl a' →
      a' = AssocMap.insert donor (keep.reverse ++ tps ++ moved) a
  | [], keep, moved, h => by
    cases h
    rw [List.append_nil]
  | tp :: tps, keep, moved, h => by
    rw [tryMove] at h
    split at h
    · rw [held_tryMove_inl h, List.reverse_cons, List.append_assoc _ [tp], List.singleton_append]
    · cases h

/-- Where the rebalancing stops, nothing changes. -/
theorem held_rebalanceStep_inl {a a' : Held} (h : rebalanceStep g a = .inl a') (mid : MemberId) :
    held a' mid = held a mid := by
  unfold rebalanceStep at h
  simp only at h
  split at h
  · rename_i donor _ _ _ _ _
    rw [held_tryMove_inl h, held_insert]
    split_ifs with hmid
    · rw [hmid, List.reverse_nil, List.nil_append, List.append_nil]
    · rfl
  · cases h
    rfl

/-- What a round keeps holds after the rebalancing. -/
theorem rebalance_induct {P : Held → Prop} (hstep : ∀ a a', P a → rebalanceStep g a = .inr a' → P a')
    (hcongr : ∀ a a', (∀ mid, held a' mid = held a mid) → P a → P a') (a : Held) (h : P a) : P (rebalance g a) := by
  induction a using rebalance.induct (g := g) with
  | case1 a a' hstop =>
    rw [rebalance_inl hstop]
    exact hcongr a a' (held_rebalanceStep_inl hstop) h
  | case2 a a' hgo ih =>
    rw [rebalance_inr hgo]
    exact ih (hstep a a' h hgo)

theorem allHeld_rebalance (hd : g.memberIds.Nodup) (a : Held) :
    (allHeld g.memberIds (rebalance g a)).Perm (allHeld g.memberIds a) := by
  refine rebalance_induct (P := fun a' => (allHeld g.memberIds a').Perm (allHeld g.memberIds a))
    (fun a₁ a₂ h hstep => ?_) (fun a₁ a₂ heq h => ?_) a (List.Perm.refl _)
  · obtain ⟨donor, l₁, tp, l₂, taker, rest, hdonor, hheld, -, htakers, rfl⟩ := rebalanceStep_inr hstep
    exact (allHeld_move hd hdonor (mem_takers htakers).1 hheld).trans h
  · have hsame : allHeld g.memberIds a₂ = allHeld g.memberIds a₁ := List.flatMap_congr fun mid _ => heq mid
    rw [hsame]
    exact h

theorem Suits.rebalanceStep {a a' : Held}
    (h : Suits g.memberSubs listed a) (hstep : rebalanceStep g a = .inr a') : Suits g.memberSubs listed a' := by
  obtain ⟨donor, l₁, tp, l₂, taker, rest, hdonor, hheld, -, htakers, rfl⟩ := rebalanceStep_inr hstep
  have hless : Suits g.memberSubs listed (AssocMap.insert donor (l₁ ++ l₂) a) := by
    intro mid tp' htp'
    rw [held_insert] at htp'
    split_ifs at htp' with hmid
    · subst hmid
      refine h mid tp' ?_
      rw [hheld]
      exact ((List.sublist_cons_self tp l₂).append_left l₁).subset htp'
    · exact h mid tp' htp'
  refine hless.give (mem_takers htakers).2.2 (h donor tp ?_).2
  rw [hheld]
  exact List.mem_append_right _ List.mem_cons_self

theorem suits_rebalance (a : Held) (h : Suits g.memberSubs listed a) :
    Suits g.memberSubs listed (rebalance g a) := by
  refine rebalance_induct (fun a₁ a₂ h hstep => h.rebalanceStep hstep) (fun a₁ a₂ heq h mid tp htp => ?_) a h
  rw [heq] at htp
  exact h mid tp htp

theorem pairwise_ids (hd : (members.map Prod.fst).Nodup) :
    ((sortOn Prod.fst members).map Prod.fst).Pairwise (· < ·) := by
  refine List.Pairwise.imp₂ (fun a b hle hne => lt_of_le_of_ne hle hne) ?_ ((perm_ids members).nodup_iff.2 hd)
  exact List.pairwise_map.2 (pairwise_sortOn Prod.fst members)

/-- What the rebalancing of the sticky assignor works with. -/
def targetsOf (totalParts : Nat) (memberOrder : Subscriptions) : Targets where
  memberIds := memberOrder.map Prod.fst
  memberSubs := AssocMap.fromList memberOrder
  ceilLoad := (totalParts + max 1 (memberOrder.map Prod.fst).length - 1) / max 1 (memberOrder.map Prod.fst).length
  floorLoad := totalParts / max 1 (memberOrder.map Prod.fst).length
  floor_le := floor_le_ceil _ _

def targets (members : Subscriptions) (topicParts : TopicParts) : Targets :=
  targetsOf (existing topicParts).length (sortOn Prod.fst members)

/-- What the members have after the partitions nobody keeps are handed out. -/
def afterHandout (members : Subscriptions) (topicParts : TopicParts) (prev : Assignment) : Held :=
  handout members (startAcc members topicParts prev)
    (stillUnassigned topicParts (startAcc members topicParts prev))

theorem stickyAssign_eq : stickyAssign members topicParts (some prev) =
    grouped ((sortOn Prod.fst members).map Prod.fst)
      (rebalance (targets members topicParts) (afterHandout members topicParts prev)) := rfl

theorem allHeld_startAcc (hd : (members.map Prod.fst).Nodup) :
    (allHeld ((sortOn Prod.fst members).map Prod.fst) (startAcc members topicParts prev)).Perm
      ((members.map Prod.fst).flatMap (claims members topicParts prev)) := by
  have heq : allHeld ((sortOn Prod.fst members).map Prod.fst) (startAcc members topicParts prev) =
      ((sortOn Prod.fst members).map Prod.fst).flatMap (claims members topicParts prev) :=
    List.flatMap_congr fun mid hmid => held_startAcc hd ((perm_ids members).mem_iff.1 hmid)
  rw [heq]
  exact (perm_ids members).flatMap_right _

theorem anyWants_members (hin : Input members topicParts) :
    anyWants ((sortOn Prod.fst members).map Prod.fst) (AssocMap.fromList members) tp = true ↔
      Wanted members (ofLex tp).1 := by
  unfold anyWants
  rw [List.any_eq_true, wanted_iff]
  constructor
  · rintro ⟨mid, -, hs⟩
    exact ⟨mid, (subscribed_iff (List.Perm.refl _) hin.ids).1 hs⟩
  · rintro ⟨mid, hw⟩
    exact ⟨mid, (perm_ids members).mem_iff.2 hw.mem, (subscribed_iff (List.Perm.refl _) hin.ids).2 hw⟩

/-- The final assignment has what is kept, and what nobody keeps. -/
theorem allHeld_sticky (prev : Assignment) (hin : Input members topicParts) :
    (allHeld ((sortOn Prod.fst members).map Prod.fst)
      (rebalance (targets members topicParts) (afterHandout members topicParts prev))).Perm
      ((stillUnassigned topicParts (startAcc members topicParts prev)).filter
          (anyWants ((sortOn Prod.fst members).map Prod.fst) (AssocMap.fromList members)) ++
        allHeld ((sortOn Prod.fst members).map Prod.fst) (startAcc members topicParts prev)) :=
  (allHeld_rebalance (g := targets members topicParts) ((perm_ids members).nodup_iff.2 hin.ids) _).trans
    (allHeld_handout (pairwise_ids hin.ids) _ (hasKeys_startAcc members topicParts prev))

/-- What is kept and what nobody keeps is all different if the claims are. -/
theorem nodup_sticky (hin : Input members topicParts) :
    ((stillUnassigned topicParts (startAcc members topicParts prev)).filter
        (anyWants ((sortOn Prod.fst members).map Prod.fst) (AssocMap.fromList members)) ++
      allHeld ((sortOn Prod.fst members).map Prod.fst) (startAcc members topicParts prev)).Nodup ↔
      ((members.map Prod.fst).flatMap (claims members topicParts prev)).Nodup := by
  have hkeys := hasKeys_startAcc members topicParts prev
  rw [List.nodup_append, (allHeld_startAcc hin.ids).nodup_iff]
  refine ⟨fun h => h.2.1, fun h => ⟨(nodup_stillUnassigned _).filter _, h, fun tp htp tp' htp' => ?_⟩⟩
  rintro rfl
  exact ((mem_stillUnassigned hkeys).1 (List.mem_filter.1 htp).1).2 htp'

theorem suits_afterHandout (hin : Input members topicParts) :
    Suits (targets members topicParts).memberSubs (partitions topicParts) (afterHandout members topicParts prev) := by
  intro mid tp htp
  have hkeys := hasKeys_startAcc members topicParts prev
  obtain ⟨hs, hl⟩ := suits_handout members (pairwise_ids hin.ids)
    (stillUnassigned topicParts (startAcc members topicParts prev))
    (fun tp htp => ((mem_stillUnassigned hkeys).1 htp).1) hkeys (suits_startAcc hin) mid tp htp
  exact ⟨(subscribed_iff (perm_order members) hin.ids).2 ((subscribed_iff (List.Perm.refl _) hin.ids).1 hs), hl⟩

/-- **The sticky assignor is exact** exactly if the claims that it keeps are all
    different. -/
theorem exact_stickyAssign (hin : Input members topicParts) :
    Exact members topicParts (stickyAssign members topicParts (some prev)) ↔
      ((members.map Prod.fst).flatMap (claims members topicParts prev)).Nodup := by
  have hkeys := hasKeys_startAcc members topicParts prev
  have hperm := allHeld_sticky prev hin
  rw [stickyAssign_eq, exact_grouped (perm_ids members) (fun mid _ tp htp => ?_) fun tp htp hw => ?_]
  · rw [hperm.nodup_iff, nodup_sticky hin]
  · obtain ⟨hs, hl⟩ := suits_rebalance _ (suits_afterHandout hin) mid tp htp
    exact ⟨(subscribed_iff (perm_order members) hin.ids).1 hs, hl⟩
  · refine hperm.mem_iff.2 (List.mem_append.2 ?_)
    by_cases howned : tp ∈ allHeld ((sortOn Prod.fst members).map Prod.fst) (startAcc members topicParts prev)
    · exact Or.inr howned
    · exact Or.inl (List.mem_filter.2 ⟨(mem_stillUnassigned hkeys).2 ⟨htp, howned⟩, (anyWants_members hin).2 hw⟩)

/-! ## Ranges -/

theorem flatten_splitSizes {α : Type} : ∀ (sizes : List Nat) (ys : List α), ys.length ≤ sizes.sum →
    (splitSizes sizes ys).flatten = ys
  | [], ys, h => by
    rw [List.sum_nil, Nat.le_zero, List.length_eq_zero_iff] at h
    rw [h]
    rfl
  | s :: ss, ys, h => by
    rw [List.sum_cons] at h
    rw [splitSizes, List.flatten_cons, flatten_splitSizes ss (ys.drop s) (by rw [List.length_drop]; omega),
      List.take_append_drop]

theorem length_splitSizes {α : Type} : ∀ (sizes : List Nat) (ys : List α), (splitSizes sizes ys).length = sizes.length
  | [], _ => rfl
  | s :: ss, ys => by rw [splitSizes, List.length_cons, List.length_cons, length_splitSizes ss]

theorem chunkRange_spec {α : Type} (xs : List α) {n : Nat} (h : n ≠ 0) :
    (chunkRange xs n).flatten = xs ∧ (chunkRange xs n).length = n := by
  have hlt := Nat.mod_lt xs.length (Nat.pos_of_ne_zero h)
  have hdiv := Nat.div_add_mod xs.length n
  unfold chunkRange
  rw [if_neg h]
  constructor
  · refine flatten_splitSizes _ _ ?_
    have hsplit : n * (xs.length / n) =
        xs.length % n * (xs.length / n) + (n - xs.length % n) * (xs.length / n) := by
      rw [← Nat.add_mul]
      congr 1
      omega
    rw [List.sum_append, List.sum_replicate_nat, List.sum_replicate_nat, Nat.mul_succ]
    omega
  · rw [length_splitSizes, List.length_append, List.length_replicate, List.length_replicate]
    omega

section
variable {lists : AssocMap MemberId (List (String × List Int))} {ps : List Int} {e : String × List Int}

/-- What all members have, by topic. -/
def allListed (ids : List MemberId) (lists : AssocMap MemberId (List (String × List Int))) : List TopicPartition :=
  ids.flatMap fun mid => partitions ((AssocMap.lookup mid lists).getD [])

theorem lookup_chunk (mid mid' : MemberId) (t : String) (ps : List Int) :
    (AssocMap.lookup mid' (AssocMap.insertWith (· ++ ·) mid [(t, ps)] lists)).getD [] =
      if mid' = mid then (t, ps) :: (AssocMap.lookup mid lists).getD []
      else (AssocMap.lookup mid' lists).getD [] := by
  rw [AssocMap.lookup_insertWith]
  split_ifs
  · cases AssocMap.lookup mid lists
    · rfl
    · rfl
  · rfl

theorem allListed_chunk (hd : ids.Nodup) (hm : mid ∈ ids) (t : String) (ps : List Int) :
    (allListed ids (AssocMap.insertWith (· ++ ·) mid [(t, ps)] lists)).Perm
      (ps.map (fun p => toLex (t, p)) ++ allListed ids lists) := by
  refine flatMap_perm hd hm _ ?_ fun i _ hi => ?_
  · rw [lookup_chunk, if_pos rfl]
    exact List.Perm.refl _
  · rw [lookup_chunk, if_neg hi]

theorem allListed_chunks (lists : AssocMap MemberId (List (String × List Int))) (hd : ids.Nodup) (t : String) (pairs : List (MemberId × List Int))
    (hpairs : ∀ c ∈ pairs, c.1 ∈ ids) :
    (allListed ids (pairs.foldr (fun c m => AssocMap.insertWith (· ++ ·) c.1 [(t, c.2)] m) lists)).Perm
      ((pairs.map Prod.snd).flatten.map (fun p => toLex (t, p)) ++ allListed ids lists) := by
  induction pairs with
  | nil => exact List.Perm.refl _
  | cons c pairs ih =>
    rw [List.foldr_cons, List.map_cons, List.flatten_cons, List.map_append, List.append_assoc]
    refine (allListed_chunk hd (hpairs c List.mem_cons_self) t c.2).trans ?_
    exact (ih fun c' hc' => hpairs c' (List.mem_cons_of_mem _ hc')).append_left _

variable {order : Subscriptions}

/-- The members in the order of the ids that want the topic. -/
theorem mem_interested (hperm : order.Perm members) :
    mid ∈ (order.filter fun m => t ∈ m.2).map Prod.fst ↔ Wants members mid t := by
  rw [List.mem_map]
  constructor
  · rintro ⟨m, hm, rfl⟩
    obtain ⟨hm, ht⟩ := List.mem_filter.1 hm
    exact ⟨m, hperm.mem_iff.1 hm, rfl, by simpa using ht⟩
  · rintro ⟨m, hm, rfl, ht⟩
    exact ⟨m, List.mem_filter.2 ⟨hperm.mem_iff.2 hm, by simpa using ht⟩, rfl⟩

theorem flatten_filter_nonempty {α : Type} (cs : List (MemberId × List α)) :
    ((cs.filter fun c => ¬ c.2.isEmpty).map Prod.snd).flatten = (cs.map Prod.snd).flatten := by
  induction cs with
  | nil => rfl
  | cons c cs ih =>
    by_cases hc : c.2 = []
    · rw [List.filter_cons_of_neg (by simp [hc]), ih, List.map_cons, List.flatten_cons, hc, List.nil_append]
    · rw [List.filter_cons_of_pos (by simpa using hc), List.map_cons, List.map_cons, List.flatten_cons,
        List.flatten_cons, ih]

theorem allListed_accumulate (hperm : order.Perm members)
    (hd : (members.map Prod.fst).Nodup) (e : String × List Int) :
    (allListed (order.map Prod.fst) (accumulate order e lists)).Perm
      ((if Wanted members e.1 then e.2.map (fun p => toLex (e.1, p)) else []) ++
        allListed (order.map Prod.fst) lists) := by
  have hd' : (order.map Prod.fst).Nodup := (hperm.map Prod.fst).nodup_iff.2 hd
  unfold accumulate
  simp only
  generalize hint : (order.filter fun m => e.1 ∈ m.2).map Prod.fst = interested
  have hmem : ∀ mid, mid ∈ interested ↔ Wants members mid e.1 := fun mid => hint ▸ mem_interested hperm
  split_ifs with hlen hw hw
  · obtain ⟨mid, hmid⟩ := wanted_iff.1 hw
    rw [List.length_eq_zero_iff.1 hlen] at hmem
    exact absurd ((hmem mid).2 hmid) List.not_mem_nil
  · exact List.Perm.refl _
  · obtain ⟨hflat, hchunks⟩ := chunkRange_spec e.2 hlen
    have hids : ∀ c ∈ (interested.zip (chunkRange e.2 interested.length)).filter fun c => ¬ c.2.isEmpty,
        c.1 ∈ order.map Prod.fst := by
      intro c hc
      have hc1 := (List.of_mem_zip (List.mem_filter.1 hc).1).1
      exact (hperm.map Prod.fst).mem_iff.2 ((hmem c.1).1 hc1).mem
    have hall := allListed_chunks lists hd' e.1 _ hids
    rw [flatten_filter_nonempty, List.map_snd_zip (Nat.le_of_eq hchunks), hflat] at hall
    exact hall
  · have hne : interested ≠ [] := fun h => hlen (by rw [h]; rfl)
    obtain ⟨mid, hmid⟩ := List.exists_mem_of_ne_nil _ hne
    exact absurd ((hmem mid).1 hmid).wanted hw

/-- A member is listed only topics it wants. -/
theorem wants_accumulate (hperm : order.Perm members) (e : String × List Int)
    (h : ∀ mid, ∀ x ∈ (AssocMap.lookup mid lists).getD [], Wants members mid x.1) (mid : MemberId) :
    ∀ x ∈ (AssocMap.lookup mid (accumulate order e lists)).getD [], Wants members mid x.1 := by
  have hfold : ∀ pairs : List (MemberId × List Int), (∀ c ∈ pairs, Wants members c.1 e.1) → ∀ mid,
      ∀ x ∈ (AssocMap.lookup mid
        (pairs.foldr (fun c m => AssocMap.insertWith (· ++ ·) c.1 [(e.1, c.2)] m) lists)).getD [],
        Wants members mid x.1 := by
    intro pairs hpairs
    induction pairs with
    | nil => exact h
    | cons c pairs ih =>
      intro mid x hx
      have hrest := ih fun c' hc' => hpairs c' (List.mem_cons_of_mem _ hc')
      rw [List.foldr_cons, lookup_chunk] at hx
      split_ifs at hx with hmid
      · rw [hmid]
        rcases List.mem_cons.1 hx with rfl | hx
        · exact hpairs c List.mem_cons_self
        · exact hrest c.1 x hx
      · exact hrest mid x hx
  unfold accumulate
  simp only
  split_ifs
  · exact h mid
  · refine hfold _ (fun c hc => ?_) mid
    exact (mem_interested hperm).1 (List.of_mem_zip (List.mem_filter.1 hc).1).1

end

theorem filter_partitions (members : Subscriptions) (es : List (String × List Int)) :
    (partitions es).filter (fun tp => Wanted members (ofLex tp).1) =
      es.flatMap fun e => if Wanted members e.1 then e.2.map (fun p => toLex (e.1, p)) else [] := by
  unfold partitions
  rw [List.filter_flatMap]
  refine List.flatMap_congr fun e _ => ?_
  split_ifs with hw
  · refine List.filter_eq_self.2 fun tp htp => ?_
    obtain ⟨p, -, rfl⟩ := List.mem_map.1 htp
    exact decide_eq_true hw
  · refine List.filter_eq_nil_iff.2 fun tp htp => ?_
    obtain ⟨p, -, rfl⟩ := List.mem_map.1 htp
    exact fun h => hw (of_decide_eq_true h)

theorem exact_rangeAssign (hin : Input members topicParts) :
    Exact members topicParts (rangeAssign members topicParts) := by
  have hperm := perm_order members
  have hd := (perm_ids members).nodup_iff.2 hin.ids
  -- the map at the start has no partitions
  have hstart : ∀ mid, (AssocMap.lookup mid (AssocMap.fromList ((sortOn Prod.fst members).map
      fun m => (m.1, ([] : List (String × List Int)))))).getD [] = [] := by
    intro mid
    cases hl : AssocMap.lookup mid (AssocMap.fromList ((sortOn Prod.fst members).map
      fun m => (m.1, ([] : List (String × List Int))))) with
    | none => rfl
    | some v =>
      obtain ⟨m, -, heq⟩ := List.mem_map.1 (AssocMap.mem_of_lookup_fromList hl)
      cases heq
      rfl
  have hfold : ∀ es : List (String × List Int),
      (allListed ((sortOn Prod.fst members).map Prod.fst) (es.foldr (accumulate (sortOn Prod.fst members))
        (AssocMap.fromList ((sortOn Prod.fst members).map fun m => (m.1, []))))).Perm
        ((partitions es).filter fun tp => Wanted members (ofLex tp).1) ∧
      ∀ mid, ∀ x ∈ (AssocMap.lookup mid (es.foldr (accumulate (sortOn Prod.fst members))
        (AssocMap.fromList ((sortOn Prod.fst members).map fun m => (m.1, []))))).getD [], Wants members mid x.1 := by
    intro es
    induction es with
    | nil =>
      constructor
      · exact List.Perm.of_eq (List.flatMap_eq_nil_iff.2 fun mid _ => by rw [List.foldr_nil, hstart]; rfl)
      · intro mid x hx
        rw [List.foldr_nil, hstart] at hx
        cases hx
    | cons e es ih =>
      constructor
      · rw [filter_partitions] at ih ⊢
        exact (allListed_accumulate hperm hin.ids e).trans (ih.1.append_left _)
      · exact wants_accumulate hperm e ih.2
  obtain ⟨hall, hwants⟩ := hfold topicParts
  have hmap : rangeAssign members topicParts = ((sortOn Prod.fst members).map Prod.fst).map fun mid => (mid,
      (AssocMap.lookup mid (topicParts.foldr (accumulate (sortOn Prod.fst members))
        (AssocMap.fromList ((sortOn Prod.fst members).map fun m => (m.1, []))))).getD []) := by
    rw [List.map_map]
    rfl
  rw [hmap]
  refine (exact_map (perm_ids members) (fun mid hmid tp htp => ⟨?_, ?_⟩) fun tp htp hw => ?_).2 ?_
  · obtain ⟨e, he, htp⟩ := List.mem_flatMap.1 htp
    obtain ⟨p, -, rfl⟩ := List.mem_map.1 htp
    exact hwants mid e he
  · exact (List.mem_filter.1 (hall.mem_iff.1 (List.mem_flatMap.2 ⟨mid, hmid, htp⟩))).1
  · exact hall.mem_iff.2 (List.mem_filter.2 ⟨htp, decide_eq_true hw⟩)
  · exact hall.nodup_iff.2 (hin.nodup_partitions.filter _)

end Wireform.Kafka.Assignor
