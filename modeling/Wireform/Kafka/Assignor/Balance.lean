/-
  The assignors, exact and balanced.

  * `balanced_roundRobinAssign`: with one subscription for all, round robin is balanced;
  * `balanced_stickyAssign`: the sticky assignor is if the loads that the members keep
    are fair (`Loads.Fair`);
  * `assignors_correct`: the assignors do what they should exactly if the claims of the
    members can be kept (`Keepable`);
  * `claimed_twice`: two members claim one partition, and three members keep 3, 3 and 1.
-/
import Wireform.Kafka.Assignor.Exact
import Wireform.Loads

namespace Wireform.Kafka.Assignor

variable {members : Subscriptions} {topicParts : TopicParts} {prev : Assignment} {mid : MemberId} {t : String}
  {tp : TopicPartition} {ids : List MemberId} {acc : Held} {subs : AssocMap MemberId (List String)}

/-- Two members get numbers of partitions that differ by at most one. -/
def Balanced (a : Assignment) : Prop :=
  ∀ x ∈ a, ∀ y ∈ a, (partitions x.2).length ≤ (partitions y.2).length + 1

/-- All members have the same subscription. -/
def SameSubscription (members : Subscriptions) : Prop := ∀ m ∈ members, ∀ m' ∈ members, ∀ t ∈ m.2, t ∈ m'.2

/-- The number of partitions of a member. -/
def load (acc : Held) (mid : MemberId) : Nat := (held acc mid).length

theorem balanced_grouped : Balanced (grouped ids acc) ↔ Loads.Even ids (load acc) := by
  have hlen : ∀ mid, (partitions (groupByTopicSorted (held acc mid))).length = load acc mid := fun mid =>
    (perm_groupByTopicSorted _).length_eq
  constructor
  · intro h i hi j hj
    have hij := h _ (List.mem_map_of_mem hi) _ (List.mem_map_of_mem hj)
    rwa [hlen, hlen] at hij
  · intro h x hx y hy
    obtain ⟨i, hi, rfl⟩ := List.mem_map.1 hx
    obtain ⟨j, hj, rfl⟩ := List.mem_map.1 hy
    rw [hlen, hlen]
    exact h i hi j hj

theorem load_give (mid : MemberId) (tp : TopicPartition) (acc : Held) :
    load (give mid tp acc) = Loads.add mid (load acc) := by
  funext mid'
  unfold load
  rw [held_give]
  split_ifs with h
  · rw [h, Loads.add_self, List.length_cons]
  · rw [Loads.add_of_ne h]

/-- With one subscription for all, whoever wants a topic at all wants it. -/
theorem SameSubscription.wants (h : SameSubscription members) (hmid : mid ∈ members.map Prod.fst)
    (hw : Wanted members t) : Wants members mid t := by
  obtain ⟨m, hm, rfl⟩ := List.mem_map.1 hmid
  obtain ⟨m', hm', ht⟩ := hw
  exact ⟨m, hm, rfl, h m' hm' m hm t ht⟩

/-! ## Round robin -/

/-- The load of a place after `s` rounds over `n` places. -/
def share (s n j : Nat) : Nat := s / n + if j < s % n then 1 else 0

theorem share_succ {s n j : Nat} (hj : j < n) : share (s + 1) n j = share s n j + if j = s % n then 1 else 0 := by
  have hpos : 0 < n := Nat.lt_of_le_of_lt (Nat.zero_le j) hj
  have hlt := Nat.mod_lt s hpos
  have hdiv := Nat.div_add_mod s n
  unfold share
  rcases Nat.lt_or_ge (s % n + 1) n with hr | hr
  · obtain ⟨hq, hm⟩ : (s + 1) / n = s / n ∧ (s + 1) % n = s % n + 1 :=
      (Nat.div_mod_unique hpos).2 ⟨by omega, hr⟩
    rw [hq, hm]
    split_ifs <;> omega
  · obtain ⟨hq, hm⟩ : (s + 1) / n = s / n + 1 ∧ (s + 1) % n = 0 := by
      refine (Nat.div_mod_unique hpos).2 ⟨?_, hpos⟩
      rw [Nat.mul_succ]
      omega
    rw [hq, hm]
    split_ifs <;> omega

/-- When all want the topic, the next member gets the partition. -/
theorem findEligible_all (hids : ids ≠ []) (hall : ∀ mid ∈ ids, subscribed subs mid t = true) (cur : Nat) :
    findEligible ids subs cur t = some (cur % ids.length, ids.getD (cur % ids.length) "") := by
  have hpos : 0 < ids.length := List.length_pos_iff.2 hids
  have hlt := Nat.mod_lt cur hpos
  have hmem : ids.getD (cur % ids.length) "" ∈ ids := by
    rw [List.getD_eq_getElem?_getD, List.getElem?_eq_getElem hlt]
    exact List.getElem_mem hlt
  have hrange : List.range ids.length = 0 :: (List.range (ids.length - 1)).map Nat.succ := by
    rw [← List.range_succ_eq_map, Nat.sub_add_cancel hpos]
  unfold findEligible
  rw [hrange, List.findSome?_cons]
  simp only [Nat.add_zero, hall _ hmem, if_true]

theorem load_assignLoop (subs : AssocMap MemberId (List String)) (hd : ids.Nodup) (hids : ids ≠ [])
    (hall : ∀ t, (∃ mid ∈ ids, subscribed subs mid t = true) → ∀ mid ∈ ids, subscribed subs mid t = true)
    (tps : List TopicPartition) (cur s : Nat) (acc : Held) (hcur : cur % ids.length = s % ids.length)
    (hload : ∀ j (hj : j < ids.length), load acc ids[j] = share s ids.length j) :
    ∃ s', ∀ j (hj : j < ids.length), load (assignLoop ids subs cur tps acc) ids[j] = share s' ids.length j := by
  induction tps generalizing cur s acc with
  | nil => exact ⟨s, hload⟩
  | cons tp tps ih =>
    unfold assignLoop
    by_cases hw : ∃ mid ∈ ids, subscribed subs mid (ofLex tp).1 = true
    · rw [findEligible_all hids (hall _ hw) cur]
      have hlt : s % ids.length < ids.length := Nat.mod_lt _ (List.length_pos_iff.2 hids)
      refine ih (cur % ids.length + 1) (s + 1) _ ?_ fun j hj => ?_
      · rw [hcur, Nat.mod_add_mod]
      · rw [share_succ hj, load_give, hcur, List.getD_eq_getElem?_getD, List.getElem?_eq_getElem hlt,
          Option.getD_some]
        split_ifs with hjs
        · subst hjs
          rw [Loads.add_self, hload]
        · rw [Loads.add_of_ne fun h => hjs ((hd.getElem_inj_iff).1 h), hload, Nat.add_zero]
    · have hnone : findEligible ids subs cur (ofLex tp).1 = none := by
        rw [Option.eq_none_iff_forall_ne_some]
        rintro ⟨i, mid⟩ hsome
        exact hw ⟨mid, findEligible_some hsome⟩
      rw [hnone]
      exact ih cur s acc hcur hload

theorem balanced_roundRobinAssign (hin : Input members topicParts) (hsame : SameSubscription members) :
    Balanced (roundRobinAssign members topicParts) := by
  have hd := (perm_ids members).nodup_iff.2 hin.ids
  have hgrouped : roundRobinAssign members topicParts = grouped ((sortOn Prod.fst members).map Prod.fst)
      (assignLoop ((sortOn Prod.fst members).map Prod.fst) (AssocMap.fromList (sortOn Prod.fst members)) 0
        ((sortOn Prod.fst topicParts).flatMap fun e => (sortOn id e.2).map fun p => toLex (e.1, p)) []) := rfl
  rw [hgrouped, balanced_grouped]
  by_cases hids : (sortOn Prod.fst members).map Prod.fst = []
  · rw [hids]
    exact fun i hi => absurd hi List.not_mem_nil
  · obtain ⟨s, hs⟩ := load_assignLoop (AssocMap.fromList (sortOn Prod.fst members)) hd hids
      (fun t ⟨mid', _, hs⟩ mid hmid => (subscribed_iff (perm_order members) hin.ids).2
        (hsame.wants ((perm_ids members).mem_iff.1 hmid)
          ((subscribed_iff (perm_order members) hin.ids).1 hs).wanted))
      ((sortOn Prod.fst topicParts).flatMap fun e => (sortOn id e.2).map fun p => toLex (e.1, p)) 0 0 []
      rfl fun j hj => by simp [load, held, share]
    intro i hi j hj
    obtain ⟨k, hk, rfl⟩ := List.getElem_of_mem hi
    obtain ⟨l, hl, rfl⟩ := List.getElem_of_mem hj
    rw [hs k hk, hs l hl]
    unfold share
    split_ifs <;> omega

/-! ## Sticky -/

theorem firstLeast_of_takes (hids : ids.Pairwise (· < ·)) (hall : ∀ mid ∈ ids, subscribed subs mid (ofLex tp).1 = true)
    (h : Takes ids subs acc tp mid) : Loads.FirstLeast ids (load acc) mid := by
  obtain ⟨l₁, l₂, rfl⟩ := List.append_of_mem h.mem
  obtain ⟨-, -, hbefore⟩ := List.pairwise_append.1 hids
  have hle : ∀ i ∈ l₁ ++ mid :: l₂, load acc mid < load acc i ∨ load acc mid = load acc i ∧ mid ≤ i :=
    fun i hi => Prod.Lex.le_iff.1 (h.least i hi (hall i hi))
  refine ⟨l₁, l₂, rfl, fun i hi => ?_, fun i hi => ?_⟩
  · refine (hle i (List.mem_append_left _ hi)).resolve_right fun h' => ?_
    exact absurd (hbefore i hi mid List.mem_cons_self) (not_lt.2 h'.2)
  · rcases hle i (List.mem_append_right _ (List.mem_cons_of_mem _ hi)) with h' | h'
    · exact Nat.le_of_lt h'
    · exact Nat.le_of_eq h'.1

theorem handed_handout (members : Subscriptions) (hids : ids.Pairwise (· < ·))
    (hall : ∀ t, (∃ mid ∈ ids, subscribed (AssocMap.fromList members) mid t = true) →
      ∀ mid ∈ ids, subscribed (AssocMap.fromList members) mid t = true)
    (tps : List TopicPartition) (h : HasKeys ids acc) :
    Loads.Handed ids (tps.filter (anyWants ids (AssocMap.fromList members))).length (load acc)
      (load (handout members acc tps)) := by
  induction tps generalizing acc with
  | nil => exact Loads.Handed.done _
  | cons tp tps ih =>
    rcases handout_cons members h hids tp tps with ⟨hnot, heq⟩ | ⟨hany, mid, htakes, heq⟩
    · rw [heq, List.filter_cons_of_neg (by rw [hnot]; exact Bool.false_ne_true)]
      exact ih h
    · rw [heq, List.filter_cons_of_pos hany, List.length_cons]
      refine Loads.Handed.give mid (firstLeast_of_takes hids (hall _ ⟨mid, htakes.mem, htakes.wants⟩) htakes) ?_
      rw [← load_give]
      exact ih (h.give htakes.mem tp)

theorem load_move {donor taker : MemberId} {l₁ l₂ : List TopicPartition} (hheld : held acc donor = l₁ ++ tp :: l₂) :
    load (give taker tp (AssocMap.insert donor (l₁ ++ l₂) acc)) =
      Loads.add taker (Loads.remove donor (load acc)) := by
  rw [load_give]
  congr 1
  funext mid
  unfold load
  rw [held_insert]
  split_ifs with h
  · rw [h, Loads.remove_self, hheld]
    simp
  · rw [Loads.remove_of_ne h]

theorem load_congr {a a' : Held} (h : ∀ mid, held a' mid = held a mid) : load a' = load a := by
  funext mid
  unfold load
  rw [h]

/-- When all want what there is, the rebalancing moves to the first below the floor, and
    stops only if nobody is above the ceiling or nobody is below the floor. -/
theorem moved_rebalance {g : Targets} {listed : List TopicPartition}
    (hall : ∀ t, (∃ mid, subscribed g.memberSubs mid t = true) → ∀ mid ∈ g.memberIds, subscribed g.memberSubs mid t = true)
    (a : Held) (h : Suits g.memberSubs listed a) :
    Loads.Moved g.memberIds g.ceilLoad g.floorLoad (load a) (load (rebalance g a)) := by
  -- whoever is below the floor wants every partition that somebody has
  have hwilling : ∀ a : Held, Suits g.memberSubs listed a → ∀ mid, ∀ tp ∈ held a mid,
      (g.memberIds.filter fun mid => (held a mid).length < g.floorLoad).filter
        (fun mid => subscribed g.memberSubs mid (ofLex tp).1) =
      g.memberIds.filter fun mid => (held a mid).length < g.floorLoad := by
    intro a ha mid tp htp
    refine List.filter_eq_self.2 fun mid' hmid' => ?_
    exact hall _ ⟨mid, (ha mid tp htp).1⟩ mid' (List.mem_filter.1 hmid').1
  induction a using rebalance.induct (g := g) with
  | case1 a a' hstop =>
    rw [rebalance_inl hstop, load_congr (held_rebalanceStep_inl hstop)]
    refine Loads.Moved.done _ ?_
    rw [Loads.surplus_eq_zero, Loads.short_eq_zero]
    by_contra hboth
    obtain ⟨hover, hunder⟩ := not_or.1 hboth
    simp only [not_forall, not_le] at hover hunder
    obtain ⟨donor, hdonor, habove⟩ := hover
    obtain ⟨taker, htaker, hbelow⟩ := hunder
    obtain ⟨d, ds, hd⟩ := List.exists_cons_of_ne_nil (List.ne_nil_of_mem
      (List.mem_filter.2 ⟨hdonor, decide_eq_true habove⟩ :
        donor ∈ g.memberIds.filter fun mid => g.ceilLoad < (held a mid).length))
    obtain ⟨u, us, hu⟩ := List.exists_cons_of_ne_nil (List.ne_nil_of_mem
      (List.mem_filter.2 ⟨htaker, decide_eq_true hbelow⟩ :
        taker ∈ g.memberIds.filter fun mid => (held a mid).length < g.floorLoad))
    have hdmem : d ∈ g.memberIds.filter fun mid => g.ceilLoad < (held a mid).length := hd ▸ List.mem_cons_self
    have hdabove : g.ceilLoad < (held a d).length := by simpa using (List.mem_filter.1 hdmem).2
    obtain ⟨tp, tps, htps⟩ := List.exists_cons_of_length_pos (Nat.lt_of_le_of_lt (Nat.zero_le _) hdabove)
    have hw := hwilling a h d tp (htps ▸ List.mem_cons_self)
    rw [hu] at hw
    unfold rebalanceStep at hstop
    simp only [hd, hu, htps] at hstop
    rw [tryMove, hw] at hstop
    cases hstop
  | case2 a a' hgo ih =>
    rw [rebalance_inr hgo]
    have hrest := ih (h.rebalanceStep hgo)
    obtain ⟨donor, l₁, tp, l₂, taker, rest, hdonor, hheld, habove, htakers, rfl⟩ := rebalanceStep_inr hgo
    have hbelow := (mem_takers htakers).2.1
    rw [hwilling a h donor tp (by rw [hheld]; exact List.mem_append_right _ List.mem_cons_self)] at htakers
    obtain ⟨i₁, i₂, hsplit, hfirst, -, -⟩ := List.filter_eq_cons_iff.1 htakers
    rw [load_move hheld] at hrest
    refine Loads.Moved.move i₁ i₂ donor taker hdonor habove hsplit (fun i hi => ?_) hbelow hrest
    have hnot : g.floorLoad ≤ (held a i).length := by simpa using hfirst i hi
    exact hnot

/-- The partitions that a subscriber could have and nobody claims. -/
def unclaimed (members : Subscriptions) (topicParts : TopicParts) (prev : Assignment) : List TopicPartition :=
  (partitions topicParts).filter fun tp =>
    Wanted members (ofLex tp).1 && !((members.map Prod.fst).flatMap (claims members topicParts prev)).contains tp

theorem claims_eq_nil (hmid : mid ∉ members.map Prod.fst) : claims members topicParts prev mid = [] := by
  unfold claims
  refine List.flatMap_eq_nil_iff.2 fun e _ => List.filter_eq_nil_iff.2 fun tp _ => ?_
  simp only [decide_eq_true_eq, not_and]
  exact fun hw => absurd hw.mem hmid

theorem load_startAcc (hin : Input members topicParts) :
    load (startAcc members topicParts prev) = fun mid => (claims members topicParts prev mid).length := by
  funext mid
  unfold load
  by_cases hmid : mid ∈ members.map Prod.fst
  · rw [held_startAcc hin.ids hmid]
  · rw [held_eq_nil (hasKeys_startAcc members topicParts prev) fun h => hmid ((perm_ids members).mem_iff.1 h),
      claims_eq_nil hmid]

theorem length_unclaimed (hin : Input members topicParts) :
    ((stillUnassigned topicParts (startAcc members topicParts prev)).filter
      (anyWants ((sortOn Prod.fst members).map Prod.fst) (AssocMap.fromList members))).length =
      (unclaimed members topicParts prev).length := by
  refine List.Perm.length_eq ((List.perm_ext_iff_of_nodup ((nodup_stillUnassigned _).filter _)
    (hin.nodup_partitions.filter _)).2 fun tp => ?_)
  rw [List.mem_filter, List.mem_filter, mem_stillUnassigned (hasKeys_startAcc members topicParts prev),
    anyWants_members hin, (allHeld_startAcc hin.ids).mem_iff]
  simp only [Bool.and_eq_true, decide_eq_true_eq, Bool.not_eq_true', List.contains_eq_mem, decide_eq_false_iff_not]
  tauto

theorem total_load (ids : List MemberId) (acc : Held) : Loads.total ids (load acc) = (allHeld ids acc).length := by
  unfold Loads.total load allHeld
  rw [List.length_flatMap]

/-- **The sticky assignor is balanced** exactly if the loads of the claims are fair. -/
theorem balanced_stickyAssign (hin : Input members topicParts) (hsame : SameSubscription members)
    (hclaims : ((members.map Prod.fst).flatMap (claims members topicParts prev)).Nodup) :
    Balanced (stickyAssign members topicParts (some prev)) ↔
      Loads.Fair ((sortOn Prod.fst members).map Prod.fst) (fun mid => (claims members topicParts prev mid).length)
        (unclaimed members topicParts prev).length (partitions topicParts).length := by
  have hd := (perm_ids members).nodup_iff.2 hin.ids
  have hkeys := hasKeys_startAcc members topicParts prev
  have hall : ∀ order : Subscriptions, order.Perm members → ∀ t,
      (∃ mid, subscribed (AssocMap.fromList order) mid t = true) →
      ∀ mid ∈ (sortOn Prod.fst members).map Prod.fst, subscribed (AssocMap.fromList order) mid t = true := by
    rintro order hperm t ⟨mid', hs⟩ mid hmid
    exact (subscribed_iff hperm hin.ids).2 (hsame.wants ((perm_ids members).mem_iff.1 hmid)
      ((subscribed_iff hperm hin.ids).1 hs).wanted)
  rw [stickyAssign_eq, balanced_grouped, ← load_startAcc hin, ← length_unclaimed hin]
  by_cases hids : (sortOn Prod.fst members).map Prod.fst = []
  · rw [hids]
    refine iff_of_true (fun i hi => absurd hi List.not_mem_nil) (Or.inl ?_)
    simp [Loads.surplus, Loads.short]
  · have hwanted : ∀ t, (∃ mid ∈ (sortOn Prod.fst members).map Prod.fst,
        subscribed (AssocMap.fromList members) mid t = true) →
        ∀ mid ∈ (sortOn Prod.fst members).map Prod.fst, subscribed (AssocMap.fromList members) mid t = true := by
      rintro t ⟨mid, -, hs⟩
      exact hall members (List.Perm.refl _) t ⟨mid, hs⟩
    have hhanded := handed_handout members (pairwise_ids hin.ids) hwanted
      (stillUnassigned topicParts (startAcc members topicParts prev)) hkeys
    have hsuits : Suits (targets members topicParts).memberSubs (partitions topicParts)
        (afterHandout members topicParts prev) := suits_afterHandout hin
    have hmoved := moved_rebalance (g := targets members topicParts) (hall _ (perm_order members)) _ hsuits
    have hmax : max 1 ((sortOn Prod.fst members).map Prod.fst).length =
        ((sortOn Prod.fst members).map Prod.fst).length :=
      max_eq_right (List.length_pos_iff.2 hids)
    have hlen : (existing topicParts).length = (partitions topicParts).length := by
      rw [← (perm_existing hin).length_eq, List.length_map]
    have hceil : (targets members topicParts).ceilLoad = ((partitions topicParts).length +
        ((sortOn Prod.fst members).map Prod.fst).length - 1) / ((sortOn Prod.fst members).map Prod.fst).length := by
      simp only [targets, targetsOf, hmax, hlen]
    have hfloor : (targets members topicParts).floorLoad =
        (partitions topicParts).length / ((sortOn Prod.fst members).map Prod.fst).length := by
      simp only [targets, targetsOf, hmax, hlen]
    rw [hceil, hfloor] at hmoved
    refine Loads.even_iff_fair hd hids ?_ hhanded hmoved
    -- all of this is different, and exists
    rw [total_load, Nat.add_comm, ← List.length_append]
    refine (((nodup_sticky hin).2 hclaims).subperm fun tp htp => ?_).length_le
    rcases List.mem_append.1 htp with htp | htp
    · exact ((mem_stillUnassigned hkeys).1 (List.mem_filter.1 htp).1).1
    · obtain ⟨mid, -, htp⟩ := List.mem_flatMap.1 htp
      exact (suits_startAcc hin mid tp htp).2

/-! ## The assignors -/

/-- What the members claim can be kept: the claims are all different, and where all
    members have the same subscription their loads are fair. -/
def Keepable (members : Subscriptions) (topicParts : TopicParts) : Option Assignment → Prop
  | none => True
  | some prev => ((members.map Prod.fst).flatMap (claims members topicParts prev)).Nodup ∧
    (SameSubscription members →
      Loads.Fair ((sortOn Prod.fst members).map Prod.fst) (fun mid => (claims members topicParts prev mid).length)
        (unclaimed members topicParts prev).length (partitions topicParts).length)

/-- **The assignors are exact and balanced** exactly if the claims can be kept. -/
theorem assignors_correct (hin : Input members topicParts) (prev : Option Assignment) :
    (Exact members topicParts (rangeAssign members topicParts) ∧
      Exact members topicParts (roundRobinAssign members topicParts) ∧
      Exact members topicParts (stickyAssign members topicParts prev) ∧
      (SameSubscription members → Balanced (roundRobinAssign members topicParts) ∧
        Balanced (stickyAssign members topicParts prev))) ↔ Keepable members topicParts prev := by
  have hrange := exact_rangeAssign hin
  have hround := exact_roundRobinAssign hin
  have hbalanced := balanced_roundRobinAssign hin
  cases prev with
  | none => exact iff_of_true ⟨hrange, hround, hround, fun hsame => ⟨hbalanced hsame, hbalanced hsame⟩⟩ trivial
  | some prev =>
    have hexact := @exact_stickyAssign members topicParts prev hin
    constructor
    · rintro ⟨-, -, hsticky, hbal⟩
      have hclaims := hexact.1 hsticky
      exact ⟨hclaims, fun hsame => (balanced_stickyAssign hin hsame hclaims).1 (hbal hsame).2⟩
    · rintro ⟨hclaims, hfair⟩
      exact ⟨hrange, hround, hexact.2 hclaims, fun hsame =>
        ⟨hbalanced hsame, (balanced_stickyAssign hin hsame hclaims).2 (hfair hsame)⟩⟩

def twoMembers : Subscriptions := [("a", ["t"]), ("b", ["t"])]

/-- One member had four partitions, and the other one has just joined. -/
theorem assignors_correct_joined :
    Input twoMembers [("t", [0, 1, 2, 3])] ∧
      Exact twoMembers [("t", [0, 1, 2, 3])]
        (stickyAssign twoMembers [("t", [0, 1, 2, 3])] (some [("a", [("t", [0, 1, 2, 3])])])) ∧
      Balanced (stickyAssign twoMembers [("t", [0, 1, 2, 3])] (some [("a", [("t", [0, 1, 2, 3])])])) := by
  have hin : Input twoMembers [("t", [0, 1, 2, 3])] := by
    refine ⟨by decide, List.pairwise_singleton _ _, fun e he => ?_⟩
    rw [List.mem_singleton.1 he]
    decide
  have hkeep : Keepable twoMembers [("t", [0, 1, 2, 3])] (some [("a", [("t", [0, 1, 2, 3])])]) :=
    ⟨by decide, fun _ => Or.inl rfl⟩
  have hsame : SameSubscription twoMembers := by
    unfold SameSubscription
    decide
  obtain ⟨-, -, hexact, hbalanced⟩ := (assignors_correct hin _).2 hkeep
  exact ⟨hin, hexact, (hbalanced hsame).2⟩

theorem sticky_of_stop {final : Assignment}
    (hstop : rebalanceStep (targets members topicParts) (afterHandout members topicParts prev) =
      .inl (afterHandout members topicParts prev))
    (h : grouped ((sortOn Prod.fst members).map Prod.fst) (afterHandout members topicParts prev) = final) :
    stickyAssign members topicParts (some prev) = final := by
  rw [stickyAssign_eq, rebalance_inl hstop, h]

def threeMembers : Subscriptions := [("a", ["t"]), ("b", ["t"]), ("c", ["t"])]

/-- **A partition that two members claim** stays with both, and loads of 3, 3 and 1 stay
    as they are. -/
theorem claimed_twice :
    (stickyAssign twoMembers [("t", [0])] (some [("a", [("t", [0])]), ("b", [("t", [0])])]) =
        [("a", [("t", [0])]), ("b", [("t", [0])])] ∧
      ¬ Exact twoMembers [("t", [0])]
        (stickyAssign twoMembers [("t", [0])] (some [("a", [("t", [0])]), ("b", [("t", [0])])]))) ∧
    stickyAssign threeMembers [("t", [0, 1, 2, 3, 4, 5, 6])]
        (some [("a", [("t", [0, 1, 2])]), ("b", [("t", [3, 4, 5])]), ("c", [("t", [6])])]) =
        [("a", [("t", [0, 1, 2])]), ("b", [("t", [3, 4, 5])]), ("c", [("t", [6])])] ∧
      ¬ Balanced (stickyAssign threeMembers [("t", [0, 1, 2, 3, 4, 5, 6])]
        (some [("a", [("t", [0, 1, 2])]), ("b", [("t", [3, 4, 5])]), ("c", [("t", [6])])])) := by
  have htwo : stickyAssign twoMembers [("t", [0])] (some [("a", [("t", [0])]), ("b", [("t", [0])])]) =
      [("a", [("t", [0])]), ("b", [("t", [0])])] := sticky_of_stop rfl rfl
  have hthree : stickyAssign threeMembers [("t", [0, 1, 2, 3, 4, 5, 6])]
      (some [("a", [("t", [0, 1, 2])]), ("b", [("t", [3, 4, 5])]), ("c", [("t", [6])])]) =
      [("a", [("t", [0, 1, 2])]), ("b", [("t", [3, 4, 5])]), ("c", [("t", [6])])] := sticky_of_stop rfl rfl
  refine ⟨⟨htwo, fun h => ?_⟩, hthree, fun h => ?_⟩
  · have hd := h.once
    rw [htwo] at hd
    exact absurd hd (by decide)
  · rw [hthree] at h
    exact absurd (h ("a", [("t", [0, 1, 2])]) (by decide) ("c", [("t", [6])]) (by decide)) (by decide)

end Wireform.Kafka.Assignor
