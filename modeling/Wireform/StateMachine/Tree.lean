/-
  The tree of a chart that passes the checks.

  * `forest_induction`: the induction over the nodes of a specification;
  * `Placed`: where a node is, its parent and its depth; `lookup_assemble`: the
    nodes of the chart are the placed ones;
  * `WellFormed`: what the rest of the development uses of a chart;
    `wellFormed`: a valid chart is well-formed;
  * `WellFormed.forest`: its tree as a `Forest`, with `properAncestors` for the
    climb.
-/
import Wireform.StateMachine.Reify
import Wireform.Forest

namespace Wireform.StateMachine

/-! ## Induction -/

mutual

theorem children_induction {Q : List NodeSpec → Prop} (nil : Q []) (cons : ∀ n ns, Q n.children → Q ns → Q (n :: ns)) :
    ∀ n : NodeSpec, Q n.children
  | .compound _ _ cs _ => forest_induction nil cons cs
  | .parallel _ cs _ => forest_induction nil cons cs
  | .atomic _ _ => nil
  | .final _ _ => nil
  | .history _ _ _ => nil

/-- **Induction over a forest**: a node comes after its children and its younger
    siblings. -/
theorem forest_induction {Q : List NodeSpec → Prop} (nil : Q []) (cons : ∀ n ns, Q n.children → Q ns → Q (n :: ns)) :
    ∀ ns : List NodeSpec, Q ns
  | [] => nil
  | n :: ns => cons n ns (children_induction nil cons n) (forest_induction nil cons ns)

end

theorem allNodes_cons (n : NodeSpec) (ns : List NodeSpec) :
    allNodes (n :: ns) = n :: (allNodes n.children ++ allNodes ns) := by
  cases n <;> rfl

theorem demoteForest_cons (parent : NodeName) (depth next : Nat) (n : NodeSpec) (ns : List NodeSpec) :
    ∃ next', (demoteForest parent depth next (n :: ns)).2 = (n.name, n.toNode parent depth next) ::
      ((demoteForest n.name (depth + 1) (next + 1) n.children).2 ++ (demoteForest parent depth next' ns).2) := by
  cases n <;> exact ⟨_, rfl⟩

/-! ## Places -/

/-- A node of the forest `ns` under `parent`, with its parent and its depth. -/
inductive Placed (ns : List NodeSpec) (parent : NodeName) (depth : Nat) : NodeSpec → NodeName → Nat → Prop
  | top {s : NodeSpec} (h : s ∈ ns) : Placed ns parent depth s parent depth
  | child {q s : NodeSpec} {p : NodeName} {d : Nat} (hq : Placed ns parent depth q p d) (h : s ∈ q.children) :
      Placed ns parent depth s q.name (d + 1)

theorem Placed.mono {ns ns' : List NodeSpec} {parent : NodeName} {depth : Nat} {s : NodeSpec} {p : NodeName} {d : Nat}
    (h : Placed ns parent depth s p d) (hsub : ∀ n ∈ ns, n ∈ ns') : Placed ns' parent depth s p d := by
  induction h with
  | top h => exact .top (hsub _ h)
  | child _ h ih => exact .child ih h

variable {ns : List NodeSpec}

theorem placed_cons {n : NodeSpec} {parent : NodeName} {depth : Nat} {s : NodeSpec} {p : NodeName}
    {d : Nat} : Placed (n :: ns) parent depth s p d ↔
      (s = n ∧ p = parent ∧ d = depth) ∨ Placed n.children n.name (depth + 1) s p d ∨ Placed ns parent depth s p d := by
  constructor
  · intro h
    induction h with
    | top h =>
      rcases List.mem_cons.1 h with rfl | h
      · exact Or.inl ⟨rfl, rfl, rfl⟩
      · exact Or.inr (Or.inr (.top h))
    | child _ h ih =>
      rcases ih with ⟨rfl, rfl, rfl⟩ | ih | ih
      · exact Or.inr (Or.inl (.top h))
      · exact Or.inr (Or.inl (.child ih h))
      · exact Or.inr (Or.inr (.child ih h))
  · rintro (⟨rfl, rfl, rfl⟩ | h | h)
    · exact .top List.mem_cons_self
    · induction h with
      | top h => exact .child (.top List.mem_cons_self) h
      | child _ h ih => exact .child ih h
    · exact h.mono fun _ => List.mem_cons_of_mem _

theorem mem_allNodes {s : NodeSpec} : ∀ (parent : NodeName) (depth : Nat),
    s ∈ allNodes ns ↔ ∃ p d, Placed ns parent depth s p d := by
  induction ns using forest_induction with
  | nil =>
    intro parent depth
    constructor
    · intro h
      cases h
    · rintro ⟨p, d, h⟩
      induction h with
      | top h => cases h
      | child _ _ ih => cases ih
  | cons n ns ihc ih =>
    intro parent depth
    rw [allNodes_cons, List.mem_cons, List.mem_append, ihc n.name (depth + 1), ih parent depth]
    simp only [placed_cons]
    constructor
    · rintro (rfl | ⟨p, d, h⟩ | ⟨p, d, h⟩)
      · exact ⟨parent, depth, Or.inl ⟨rfl, rfl, rfl⟩⟩
      · exact ⟨p, d, Or.inr (Or.inl h)⟩
      · exact ⟨p, d, Or.inr (Or.inr h)⟩
    · rintro ⟨p, d, ⟨rfl, -, -⟩ | h | h⟩
      · exact Or.inl rfl
      · exact Or.inr (Or.inl ⟨p, d, h⟩)
      · exact Or.inr (Or.inr ⟨p, d, h⟩)

/-- The entries are the placed nodes, each at some position. -/
theorem mem_demoteForest : ∀ {parent : NodeName} {depth next : Nat} {e : NodeName × RNode},
    e ∈ (demoteForest parent depth next ns).2 →
      ∃ s p d o, Placed ns parent depth s p d ∧ e = (s.name, s.toNode p d o) := by
  induction ns using forest_induction with
  | nil =>
    intro parent depth next e h
    cases h
  | cons n ns ihc ih =>
    intro parent depth next e h
    obtain ⟨next', hnext⟩ := demoteForest_cons parent depth next n ns
    rw [hnext, List.mem_cons, List.mem_append] at h
    rcases h with rfl | h | h
    · exact ⟨n, parent, depth, next, .top List.mem_cons_self, rfl⟩
    · obtain ⟨s, p, d, o, hs, rfl⟩ := ihc h
      exact ⟨s, p, d, o, placed_cons.2 (Or.inr (Or.inl hs)), rfl⟩
    · obtain ⟨s, p, d, o, hs, rfl⟩ := ih h
      exact ⟨s, p, d, o, placed_cons.2 (Or.inr (Or.inr hs)), rfl⟩

theorem Placed.mem_demoteForest : ∀ {parent : NodeName} {depth : Nat} (next : Nat) {s : NodeSpec}
    {p : NodeName} {d : Nat}, Placed ns parent depth s p d →
      ∃ o, (s.name, s.toNode p d o) ∈ (demoteForest parent depth next ns).2 := by
  induction ns using forest_induction with
  | nil =>
    intro parent depth next s p d h
    induction h with
    | top h => cases h
    | child _ _ ih => exact absurd ih (by rintro ⟨o, ho⟩; cases ho)
  | cons n ns ihc ih =>
    intro parent depth next s p d h
    obtain ⟨next', hnext⟩ := demoteForest_cons parent depth next n ns
    simp only [hnext, List.mem_cons, List.mem_append]
    rcases placed_cons.1 h with ⟨rfl, rfl, rfl⟩ | h | h
    · exact ⟨next, Or.inl rfl⟩
    · obtain ⟨o, ho⟩ := ihc (next + 1) h
      exact ⟨o, Or.inr (Or.inl ho)⟩
    · obtain ⟨o, ho⟩ := ih next' h
      exact ⟨o, Or.inr (Or.inr ho)⟩

theorem demoteForest_names : ∀ (parent : NodeName) (depth next : Nat),
    (demoteForest parent depth next ns).2.map Prod.fst = (allNodes ns).map NodeSpec.name := by
  induction ns using forest_induction with
  | nil => exact fun _ _ _ => rfl
  | cons n ns ihc ih =>
    intro parent depth next
    obtain ⟨next', hnext⟩ := demoteForest_cons parent depth next n ns
    rw [hnext, allNodes_cons, List.map_cons, List.map_append, ihc, ih, List.map_cons, List.map_append]

/-- The names of siblings are among the names. -/
theorem names_sublist (ns : List NodeSpec) : (ns.map NodeSpec.name).Sublist ((allNodes ns).map NodeSpec.name) := by
  induction ns with
  | nil => exact List.Sublist.refl _
  | cons n ns ih =>
    rw [allNodes_cons, List.map_cons, List.map_cons, List.map_append]
    exact (ih.trans (List.sublist_append_right _ _)).cons_cons _

theorem children_sublist {q : NodeSpec} (h : q ∈ allNodes ns) :
    (q.children.map NodeSpec.name).Sublist ((allNodes ns).map NodeSpec.name) := by
  induction ns using forest_induction with
  | nil => cases h
  | cons n ns ihc ih =>
    rw [allNodes_cons, List.map_cons, List.map_append]
    rw [allNodes_cons, List.mem_cons, List.mem_append] at h
    refine List.Sublist.cons _ ?_
    rcases h with rfl | h | h
    · exact (names_sublist _).trans (List.sublist_append_left _ _)
    · exact (ihc h).trans (List.sublist_append_left _ _)
    · exact (ih h).trans (List.sublist_append_right _ _)

/-! ## Well-formed charts -/

/-- What a chart from a valid specification is. -/
structure WellFormed (c : RChart) : Prop where
  root : lookupNode c rootName = none
  parent : ∀ {n nd}, lookupNode c n = some nd → n ∈ childrenOf c nd.parent
  depth : ∀ {n nd}, lookupNode c n = some nd → nd.depth = depthOf c nd.parent + 1
  child : ∀ {n p}, n ∈ childrenOf c p → ∃ nd, lookupNode c n = some nd ∧ nd.parent = p
  nodup : ∀ p, (childrenOf c p).Nodup
  compound : ∀ {n nd ini}, lookupNode c n = some nd → nd.kind = .compound ini → ini ∈ nd.children
  inner : ∀ {n nd}, lookupNode c n = some nd → nd.children ≠ [] → (∃ ini, nd.kind = .compound ini) ∨ nd.kind = .parallel
  initial : c.initial ∈ c.topLevel
  initialReal : isHistory c c.initial = false
  targets : ∀ {n t m}, t ∈ transitionsOf c n → m ∈ t.targets → (lookupNode c m).isSome
  default : ∀ {n nd k d}, lookupNode c n = some nd → nd.kind = .history k (some d) → (lookupNode c d).isSome
  timers : ∀ n, (timersOf c n).Nodup
  rootTimers : timersOf c rootName = []
  invokes : ∀ n, ((invokesOf c n).map RInvoke.id).Nodup
  invokesApart : ∀ {n m i}, n ≠ m → i ∈ (invokesOf c n).map RInvoke.id → i ∉ (invokesOf c m).map RInvoke.id
  rootInvokes : (c.rootInvokes.map RInvoke.id).Nodup
  rootInvokesApart : ∀ {n i}, i ∈ c.rootInvokes.map RInvoke.id → i ∉ (invokesOf c n).map RInvoke.id

section
variable {s : ChartSpec}

variable {n : NodeName}

/-- **The nodes of the chart are the placed nodes.** -/
theorem lookup_assemble {nd : RNode} (h : lookupNode (assemble s) n = some nd) :
    ∃ q p d o, Placed s.states rootName 1 q p d ∧ n = q.name ∧ nd = q.toNode p d o := by
  obtain ⟨q, p, d, o, hq, he⟩ := mem_demoteForest (AssocMap.mem_of_lookup_fromList h)
  cases he
  exact ⟨q, p, d, o, hq, rfl, rfl⟩

theorem Placed.lookup (hv : ValidChart s) {q : NodeSpec} {p : NodeName} {d : Nat}
    (h : Placed s.states rootName 1 q p d) : ∃ o, lookupNode (assemble s) q.name = some (q.toNode p d o) := by
  obtain ⟨o, ho⟩ := h.mem_demoteForest 1
  refine ⟨o, AssocMap.lookup_fromList_of_mem ?_ ho⟩
  rw [demoteForest_names]
  exact hv.uniqueStateNames

theorem Placed.name_ne_root (hv : ValidChart s) {q : NodeSpec} {p : NodeName} {d : Nat}
    (h : Placed s.states rootName 1 q p d) : q.name ≠ rootName := fun he =>
  hv.notRoot (he ▸ List.mem_map_of_mem ((mem_allNodes rootName 1).2 ⟨p, d, h⟩))

theorem childrenOf_root (c : RChart) : childrenOf c rootName = c.topLevel := if_pos rfl

theorem childrenOf_of_lookup {c : RChart} {nd : RNode} (hn : n ≠ rootName)
    (h : lookupNode c n = some nd) : childrenOf c n = nd.children := by
  rw [childrenOf, if_neg hn, h]
  rfl

theorem depthOf_of_lookup {c : RChart} {nd : RNode} (h : lookupNode c n = some nd) :
    depthOf c n = nd.depth := by
  rw [depthOf, h]
  rfl

/-- A name of the specification is known. -/
theorem lookup_of_name (hv : ValidChart s) (h : n ∈ stateNames s) :
    (lookupNode (assemble s) n).isSome := by
  obtain ⟨q, hq, rfl⟩ := List.mem_map.1 h
  obtain ⟨p, d, hp⟩ := (mem_allNodes rootName 1).1 hq
  obtain ⟨o, ho⟩ := hp.lookup hv
  rw [ho]
  rfl

theorem root_unknown (hv : ValidChart s) : lookupNode (assemble s) rootName = none := by
  cases h : lookupNode (assemble s) rootName with
  | none => rfl
  | some nd =>
    obtain ⟨q, p, d, o, hq, he, _⟩ := lookup_assemble h
    exact absurd he.symm (hq.name_ne_root hv)

/-- The children of a node or of the root. -/
theorem mem_childrenOf {n p : NodeName} (h : n ∈ childrenOf (assemble s) p) :
    ∃ q d, Placed s.states rootName 1 q p d ∧ n = q.name := by
  by_cases hp : p = rootName
  · subst hp
    rw [childrenOf_root] at h
    obtain ⟨q, hq, rfl⟩ := List.mem_map.1 h
    exact ⟨q, 1, .top hq, rfl⟩
  · rw [childrenOf, if_neg hp] at h
    cases hl : lookupNode (assemble s) p with
    | none => rw [hl] at h; cases h
    | some nd =>
      obtain ⟨q, p', d, o, hq, rfl, rfl⟩ := lookup_assemble hl
      rw [hl] at h
      obtain ⟨q', hq', rfl⟩ := List.mem_map.1 h
      exact ⟨q', d + 1, .child hq hq', rfl⟩

/-! ## Transitions and invocations -/

theorem finishTrans_targets (i : Option String) (t : TransSpec) : (finishTrans i t).targets = t.targets := rfl

/-- The transitions of a node are those of its features. -/
theorem mem_flatten {fs : List Feature} {t : RTrans} (h : t ∈ (flattenFeatures fs).transitions) :
    ∃ t' ∈ transSpecs fs, t.targets = t'.targets ∧
      (t.trigger = (finishTrans none t').trigger ∨ ∃ i, t.trigger = (finishTrans (some i) t').trigger) := by
  obtain ⟨⟨t₁, i⟩, ht₁, rfl⟩ := List.mem_map.1 h
  obtain ⟨f, hf, ht₁⟩ := List.mem_flatMap.1 (List.fst_mem_of_mem_zipIdx ht₁)
  cases f with
  | trans t' =>
    obtain rfl := List.mem_singleton.1 ht₁
    exact ⟨t', List.mem_flatMap.2 ⟨_, hf, List.mem_singleton.2 rfl⟩, rfl, Or.inl rfl⟩
  | entry as | exit as => cases ht₁
  | invoke id src onDone onError =>
    obtain ⟨t', ht', rfl⟩ := List.mem_map.1 ht₁
    exact ⟨t', List.mem_flatMap.2 ⟨_, hf, ht'⟩, rfl, Or.inr ⟨id, rfl⟩⟩

theorem flatten_indices (fs : List Feature) : (flattenFeatures fs).transitions.Pairwise fun t t' => t.index ≠ t'.index := by
  refine List.pairwise_map.2 ?_
  have h : ((fs.flatMap fun f => f.flat.transitions).zipIdx.map Prod.snd).Nodup := by
    rw [List.zipIdx_map_snd]
    exact List.nodup_range'
  exact List.pairwise_map.1 h

theorem timers_nodup {ts : List RTrans} (h : ts.Pairwise fun t t' => t.index ≠ t'.index) :
    (ts.filterMap (timerOf n)).Nodup := by
  have hindex : ∀ {t k}, timerOf n t = some k → k.index = t.index := by
    intro t k hk
    unfold timerOf at hk
    split at hk
    · cases hk
      rfl
    · cases hk
  refine List.pairwise_filterMap.2 (h.imp fun {t t'} hne k hk k' hk' he => ?_)
  subst he
  exact hne ((hindex hk).symm.trans (hindex hk'))

theorem flatten_invokes (fs : List Feature) : (flattenFeatures fs).invokes.map RInvoke.id = invokeIds fs := by
  induction fs with
  | nil => rfl
  | cons f fs ih =>
    have hcons : (flattenFeatures (f :: fs)).invokes = f.flat.invokes ++ (flattenFeatures fs).invokes := rfl
    rw [hcons, List.map_append, ih]
    cases f <;> rfl

theorem transitionsOf_features {t : RTrans} (h : t ∈ transitionsOf (assemble s) n) :
    ∃ fs ∈ featureLists s, t ∈ (flattenFeatures fs).transitions := by
  by_cases hn : n = rootName
  · rw [transitionsOf, if_pos hn] at h
    exact ⟨s.rootFeatures, List.mem_cons_self, h⟩
  · rw [transitionsOf, if_neg hn] at h
    cases hl : lookupNode (assemble s) n with
    | none => rw [hl] at h; cases h
    | some nd =>
      obtain ⟨q, p, d, o, hq, rfl, rfl⟩ := lookup_assemble hl
      rw [hl] at h
      exact ⟨q.features, List.mem_cons_of_mem _ (List.mem_map_of_mem ((mem_allNodes rootName 1).2 ⟨p, d, hq⟩)), h⟩

theorem invokesOf_features (hi : (invokesOf (assemble s) n).map RInvoke.id ≠ []) :
    ∃ q ∈ allNodes s.states, n = q.name ∧ (invokesOf (assemble s) n).map RInvoke.id = invokeIds q.features := by
  rw [invokesOf] at hi ⊢
  cases hl : lookupNode (assemble s) n with
  | none => rw [hl] at hi; exact absurd rfl hi
  | some nd =>
    obtain ⟨q, p, d, o, hq, rfl, rfl⟩ := lookup_assemble hl
    exact ⟨q, (mem_allNodes rootName 1).2 ⟨p, d, hq⟩, rfl, flatten_invokes q.features⟩

/-- The invoke ids of the root, then those of the nodes. -/
theorem invokeIds_nodup (hv : ValidChart s) : (invokeIds s.rootFeatures).Nodup ∧
    (∀ q ∈ allNodes s.states, (invokeIds q.features).Nodup ∧ (invokeIds s.rootFeatures).Disjoint (invokeIds q.features)) ∧
    ∀ q ∈ allNodes s.states, ∀ q' ∈ allNodes s.states, q ≠ q' →
      (invokeIds q.features).Disjoint (invokeIds q'.features) := by
  have h := hv.uniqueInvokeIds
  rw [featureLists, List.flatMap_cons, List.nodup_append'] at h
  obtain ⟨hroot, hnodes, hdisj⟩ := h
  rw [List.nodup_flatMap] at hnodes
  have hpair := List.pairwise_map.1 hnodes.2
  refine ⟨hroot, fun q hq => ⟨hnodes.1 _ (List.mem_map_of_mem hq), fun i hi hi' => hdisj hi ?_⟩, ?_⟩
  · exact List.mem_flatMap.2 ⟨q.features, List.mem_map_of_mem hq, hi'⟩
  · intro q hq q' hq' hne
    have hsymm : Std.Symm fun a b : NodeSpec => Function.onFun List.Disjoint invokeIds a.features b.features :=
      ⟨fun _ _ h => List.Disjoint.symm h⟩
    exact hpair.forall hq hq' hne

/-- **A valid chart is well-formed.** -/
theorem wellFormed (hv : ValidChart s) : WellFormed (assemble s) where
  root := root_unknown hv
  parent := by
    intro n nd h
    obtain ⟨q, p, d, o, hq, rfl, rfl⟩ := lookup_assemble h
    cases hq with
    | top hq =>
      rw [show (q.toNode rootName 1 o).parent = rootName from rfl, childrenOf_root]
      exact List.mem_map_of_mem hq
    | @child q' _ p' d' hq' hmem =>
      obtain ⟨o', ho'⟩ := hq'.lookup hv
      rw [show (q.toNode q'.name (d' + 1) o).parent = q'.name from rfl, childrenOf_of_lookup (hq'.name_ne_root hv) ho']
      exact List.mem_map_of_mem hmem
  depth := by
    intro n nd h
    obtain ⟨q, p, d, o, hq, rfl, rfl⟩ := lookup_assemble h
    cases hq with
    | top hq =>
      rw [show (q.toNode rootName 1 o).parent = rootName from rfl, depthOf, root_unknown hv]
      rfl
    | @child q' _ p' d' hq' hmem =>
      obtain ⟨o', ho'⟩ := hq'.lookup hv
      rw [show (q.toNode q'.name (d' + 1) o).parent = q'.name from rfl, depthOf_of_lookup ho']
      rfl
  child := by
    intro n p h
    obtain ⟨q, d, hq, rfl⟩ := mem_childrenOf h
    obtain ⟨o, ho⟩ := hq.lookup hv
    exact ⟨_, ho, rfl⟩
  nodup := by
    intro p
    by_cases hp : p = rootName
    · rw [hp, childrenOf_root]
      exact hv.uniqueStateNames.sublist (names_sublist s.states)
    · rw [childrenOf, if_neg hp]
      cases hl : lookupNode (assemble s) p with
      | none => exact List.nodup_nil
      | some nd =>
        obtain ⟨q, p', d, o, hq, rfl, rfl⟩ := lookup_assemble hl
        exact hv.uniqueStateNames.sublist (children_sublist ((mem_allNodes rootName 1).2 ⟨p', d, hq⟩))
  compound := by
    intro n nd ini h hk
    obtain ⟨q, p, d, o, hq, rfl, rfl⟩ := lookup_assemble h
    have hok := List.all_eq_true.1 hv.compoundStates q ((mem_allNodes rootName 1).2 ⟨p, d, hq⟩)
    cases q with
    | compound n ini' cs fs =>
      cases hk
      rw [compoundOK, Bool.and_eq_true, List.contains_iff_mem] at hok
      exact hok.2
    | atomic | parallel | final | history => cases hk
  inner := by
    intro n nd h hne
    obtain ⟨q, p, d, o, hq, rfl, rfl⟩ := lookup_assemble h
    cases q with
    | compound n ini cs fs => exact Or.inl ⟨ini, rfl⟩
    | parallel => exact Or.inr rfl
    | atomic | final | history => exact absurd rfl hne
  initial := by
    obtain ⟨q, hq, hok⟩ := List.any_eq_true.1 hv.initialState
    rw [Bool.and_eq_true, decide_eq_true_eq] at hok
    exact List.mem_map.2 ⟨q, hq, hok.1⟩
  initialReal := by
    obtain ⟨q, hq, hok⟩ := List.any_eq_true.1 hv.initialState
    rw [Bool.and_eq_true, decide_eq_true_eq] at hok
    have hplaced : Placed s.states rootName 1 q rootName 1 := .top hq
    obtain ⟨o, ho⟩ := hplaced.lookup hv
    rw [show (assemble s).initial = q.name from hok.1.symm, isHistory, nodeKindOf, ho]
    cases q with
    | history => cases hok.2
    | atomic | compound | parallel | final => rfl
  targets := by
    intro n t m ht hm
    obtain ⟨fs, hfs, ht⟩ := transitionsOf_features ht
    obtain ⟨t', ht', heq, _⟩ := mem_flatten ht
    exact lookup_of_name hv (hv.transitionTargets fs hfs t' ht' m (heq ▸ hm))
  default := by
    intro n nd k d h hk
    obtain ⟨q, p, d', o, hq, rfl, rfl⟩ := lookup_assemble h
    have hok := List.all_eq_true.1 hv.historyDefaults q ((mem_allNodes rootName 1).2 ⟨p, d', hq⟩)
    cases q with
    | history n k' def' =>
      cases hk
      exact lookup_of_name hv (List.contains_iff_mem.1 hok)
    | atomic | compound | parallel | final => cases hk
  timers := by
    intro n
    refine timers_nodup ?_
    unfold transitionsOf
    split_ifs
    · exact flatten_indices _
    · cases hl : lookupNode (assemble s) n with
      | none => exact List.Pairwise.nil
      | some nd =>
        obtain ⟨q, p, d, o, hq, rfl, rfl⟩ := lookup_assemble hl
        exact flatten_indices _
  rootTimers := by
    refine List.filterMap_eq_nil_iff.2 fun t ht => ?_
    rw [transitionsOf, if_pos rfl] at ht
    obtain ⟨t', ht', _, htr⟩ := mem_flatten ht
    obtain ⟨f, hf, ht'⟩ := List.mem_flatMap.1 ht'
    have hok := List.all_eq_true.1 hv.rootFeatures f hf
    have hplaced := List.all_eq_true.1 (hv.invokeTriggersPlaced _ List.mem_cons_self) f hf
    cases f with
    | trans t'' =>
      obtain rfl := List.mem_singleton.1 ht'
      unfold timerOf
      cases htrig : t'.trigger with
      | after ms => rw [rootFeatureOK, htrig] at hok; cases hok
      | on | wildcard | always | done | invokeDone | invokeError =>
        rcases htr with htr | ⟨i, htr⟩ <;> rw [htr, finishTrans, htrig]
    | entry | exit => cases ht'
    | invoke id src onDone onError =>
      rw [placementOK, Bool.and_eq_true, List.all_eq_true, List.all_eq_true] at hplaced
      unfold timerOf
      rcases List.mem_append.1 ht' with hmem | hmem
      · have htrig := of_decide_eq_true (hplaced.1 t' hmem)
        rcases htr with htr | ⟨i, htr⟩ <;> rw [htr, finishTrans, htrig]
      · have htrig := of_decide_eq_true (hplaced.2 t' hmem)
        rcases htr with htr | ⟨i, htr⟩ <;> rw [htr, finishTrans, htrig]
  invokes := by
    intro n
    by_cases hne : (invokesOf (assemble s) n).map RInvoke.id = []
    · rw [hne]
      exact List.nodup_nil
    · obtain ⟨q, hq, rfl, heq⟩ := invokesOf_features hne
      rw [heq]
      exact ((invokeIds_nodup hv).2.1 q hq).1
  invokesApart := by
    intro n m i hnm hi hi'
    obtain ⟨q, hq, rfl, heq⟩ := invokesOf_features (List.ne_nil_of_mem hi)
    obtain ⟨q', hq', rfl, heq'⟩ := invokesOf_features (List.ne_nil_of_mem hi')
    rw [heq] at hi
    rw [heq'] at hi'
    exact (invokeIds_nodup hv).2.2 q hq q' hq' (by rintro rfl; exact hnm rfl) hi hi'
  rootInvokes := by
    rw [show (assemble s).rootInvokes = (flattenFeatures s.rootFeatures).invokes from rfl, flatten_invokes]
    exact (invokeIds_nodup hv).1
  rootInvokesApart := by
    intro n i hi hi'
    rw [show (assemble s).rootInvokes = (flattenFeatures s.rootFeatures).invokes from rfl, flatten_invokes] at hi
    obtain ⟨q, hq, rfl, heq⟩ := invokesOf_features (List.ne_nil_of_mem hi')
    rw [heq] at hi'
    exact ((invokeIds_nodup hv).2.1 q hq).2 hi hi'

end

/-! ## The tree -/

section
variable {c : RChart}

/-- A state of the chart. -/
def Known (c : RChart) (n : NodeName) : Prop := (lookupNode c n).isSome

theorem Known.exists {n : NodeName} (h : Known c n) : ∃ nd, lookupNode c n = some nd := Option.isSome_iff_exists.1 h

theorem known_of_lookup {n : NodeName} {nd : RNode} (h : lookupNode c n = some nd) : Known c n :=
  Option.isSome_iff_exists.2 ⟨nd, h⟩

theorem parentOf_some {n p : NodeName} : parentOf c n = some p ↔ ∃ nd, lookupNode c n = some nd ∧ nd.parent = p :=
  Option.map_eq_some_iff

/-- The tree of a chart, with the root on top. -/
def WellFormed.forest (h : WellFormed c) : Forest NodeName where
  parent := parentOf c
  rank := depthOf c
  rank_lt := by
    intro n p hp
    obtain ⟨nd, hnd, rfl⟩ := parentOf_some.1 hp
    rw [depthOf_of_lookup hnd, h.depth hnd]
    exact Nat.lt_succ_self _

variable (h : WellFormed c)
include h

theorem WellFormed.parentOf_root : parentOf c rootName = none := by
  rw [parentOf, h.root]
  rfl

theorem WellFormed.properAncestors_eq (n : NodeName) : properAncestors c n = h.forest.ancestors n := by
  have hgo : ∀ k m, properAncestors.go c k m = h.forest.climb k m := by
    intro k
    induction k with
    | zero => exact fun _ => rfl
    | succ k ih =>
      intro m
      have hparent : h.forest.parent m = parentOf c m := rfl
      rw [properAncestors.go, Forest.climb, hparent]
      cases hp : parentOf c m with
      | none => rfl
      | some p =>
        dsimp only
        split_ifs with hr
        · subst hr
          have hnone : h.forest.parent rootName = none := h.parentOf_root
          cases k <;> simp [Forest.climb, hnone]
        · rw [ih]
  exact hgo _ n

/-- `x` is below `y`. -/
theorem WellFormed.mem_properAncestors {x y : NodeName} : y ∈ properAncestors c x ↔ h.forest.Under x y := by
  rw [h.properAncestors_eq]
  rfl

theorem WellFormed.parent_known {n p : NodeName} (hp : parentOf c n = some p) : p = rootName ∨ Known c p := by
  obtain ⟨nd, hnd, rfl⟩ := parentOf_some.1 hp
  by_cases hroot : nd.parent = rootName
  · exact Or.inl hroot
  · refine Or.inr ?_
    have hmem := h.parent hnd
    rw [childrenOf, if_neg hroot] at hmem
    cases hl : lookupNode c nd.parent with
    | none => rw [hl] at hmem; cases hmem
    | some pd => exact known_of_lookup hl

/-- Every state is below the root. -/
theorem WellFormed.under_root {n : NodeName} (hn : Known c n) : h.forest.Under n rootName := by
  induction hd : depthOf c n using Nat.strongRecOn generalizing n with
  | ind d ih =>
    obtain ⟨nd, hnd⟩ := hn.exists
    have hp : parentOf c n = some nd.parent := parentOf_some.2 ⟨nd, hnd, rfl⟩
    refine Forest.under_iff.2 ⟨nd.parent, hp, ?_⟩
    rcases h.parent_known hp with hroot | hknown
    · exact Or.inl hroot
    · refine Or.inr (ih (depthOf c nd.parent) ?_ hknown rfl)
      rw [← hd, depthOf_of_lookup hnd, h.depth hnd]
      exact Nat.lt_succ_self _

theorem WellFormed.under_known {x y : NodeName} (hxy : h.forest.Under x y) : Known c x := by
  obtain ⟨p, hp, -⟩ := Forest.under_iff.1 hxy
  obtain ⟨nd, hnd, -⟩ := parentOf_some.1 hp
  exact known_of_lookup hnd

theorem WellFormed.above_known {x y : NodeName} (hxy : h.forest.Under x y) : y = rootName ∨ Known c y := by
  obtain ⟨m, hm, -⟩ := Forest.exists_child hxy
  exact h.parent_known hm

theorem WellFormed.isDescendantOf_iff {a b : NodeName} (ha : Known c a) :
    isDescendantOf c a b = true ↔ h.forest.Under a b := by
  rw [isDescendantOf, Bool.or_eq_true, decide_eq_true_eq, List.contains_iff_mem, h.mem_properAncestors]
  constructor
  · rintro (rfl | hu)
    · exact h.under_root ha
    · exact hu
  · exact Or.inr

/-- The children are the nodes with that parent. -/
theorem WellFormed.mem_childrenOf {n p : NodeName} : n ∈ childrenOf c p ↔ parentOf c n = some p := by
  constructor
  · intro hn
    exact parentOf_some.2 (h.child hn)
  · intro hp
    obtain ⟨nd, hnd, rfl⟩ := parentOf_some.1 hp
    exact h.parent hnd

/-- A node with children is the root, a compound or a parallel state. -/
theorem WellFormed.parent_kind {n p : NodeName} (hn : n ∈ childrenOf c p) :
    p = rootName ∨ (∃ ini, nodeKindOf c p = some (.compound ini)) ∨ nodeKindOf c p = some .parallel := by
  by_cases hp : p = rootName
  · exact Or.inl hp
  · refine Or.inr ?_
    have hkids := hn
    rw [childrenOf, if_neg hp] at hkids
    cases hl : lookupNode c p with
    | none => rw [hl] at hkids; cases hkids
    | some nd =>
      rw [hl] at hkids
      rw [nodeKindOf, hl]
      rcases h.inner hl (List.ne_nil_of_mem hkids) with ⟨ini, hk⟩ | hk
      · exact Or.inl ⟨ini, congrArg some hk⟩
      · exact Or.inr (congrArg some hk)

theorem WellFormed.compound_initial {n ini : NodeName} (hk : nodeKindOf c n = some (.compound ini)) :
    ini ∈ childrenOf c n := by
  obtain ⟨nd, hnd, hkind⟩ := Option.map_eq_some_iff.1 hk
  have hn : n ≠ rootName := by
    rintro rfl
    rw [h.root] at hnd
    cases hnd
  rw [childrenOf_of_lookup hn hnd]
  exact h.compound hnd hkind

end

end Wireform.StateMachine
