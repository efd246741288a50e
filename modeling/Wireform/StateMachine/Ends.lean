/-
  Where the entry recursion ends.

  * `Link`: a compound state leads to its initial child, a history state to its
    targets;
  * `missing`: the states that are not entered yet; every region that is entered
    makes them fewer;
  * `entry_ends_iff`: the recursion ends everywhere exactly when the links do not
    go round.
-/
import Wireform.StateMachine.Entry
import Mathlib.Data.Finset.Card

namespace Wireform.StateMachine

section
variable {c : RChart} {hist : History}

/-! ## Links -/

/-- `Link c hist m n`: the entry of `n` enters `m` on its behalf. -/
inductive Link (c : RChart) (hist : History) : NodeName → NodeName → Prop
  | initial {n ini : NodeName} (h : nodeKindOf c n = some (.compound ini)) : Link c hist ini n
  | target {n m : NodeName} {k : HistoryKind} {d : Option NodeName} (h : nodeKindOf c n = some (.history k d))
      (hm : m ∈ historyTargets c hist n d) : Link c hist m n

/-- The links do not go round. -/
def Grounded (c : RChart) (hist : History) : Prop := ∀ n, Acc (Link c hist) n

/-- A state whose entry ends is grounded. -/
theorem acc_of_ends {fuel : Nat} {n : NodeName} {a b : Config} (h : addDescendants c hist fuel n a = some b) :
    Acc (Link c hist) n := by
  refine @entry_rule c hist (fun n _ _ => Acc (Link c hist) n) ?_ fuel n a b h
  constructor
  · intro n a hh hc _
    refine Acc.intro n fun m hm => ?_
    cases hm with
    | initial hk => rw [isCompound, hk] at hc; cases hc
    | target hk _ => rw [isHistory, hk] at hh; cases hh
  · intro n ini a b b' hk hini _
    refine Acc.intro n fun m hm => ?_
    cases hm with
    | initial hk' =>
      rw [hk] at hk'
      cases hk'
      exact hini
    | target hk' _ =>
      rw [hk] at hk'
      cases hk'
  · intro n a b hk _
    refine Acc.intro n fun m hm => ?_
    cases hm with
    | initial hk' =>
      rw [hk] at hk'
      cases hk'
    | target hk' _ =>
      rw [hk] at hk'
      cases hk'
  · intro n k d a b b' hk hdesc _
    refine Acc.intro n fun m hm => ?_
    cases hm with
    | initial hk' =>
      rw [hk] at hk'
      cases hk'
    | target hk' hm =>
      rw [hk] at hk'
      cases hk'
      obtain ⟨_, _, hacc⟩ := hdesc.exists m hm
      exact hacc

/-! ## The states that are missing -/

/-- The states, history states apart, that are not in the set. -/
def missing (c : RChart) (a : Config) : Finset NodeName :=
  (c.nodes.map Prod.fst).toFinset.filter fun x => isHistory c x = false ∧ x ∉ a

theorem mem_missing {a : Config} {x : NodeName} :
    x ∈ missing c a ↔ x ∈ c.nodes.map Prod.fst ∧ isHistory c x = false ∧ x ∉ a := by
  rw [missing, Finset.mem_filter, List.mem_toFinset]

theorem missing_le {a b : Config} (h : ∀ x ∈ a, isHistory c x = false → x ∈ b) : (missing c b).card ≤ (missing c a).card := by
  refine Finset.card_le_card fun x hx => ?_
  obtain ⟨hkey, hh, hb⟩ := mem_missing.1 hx
  exact mem_missing.2 ⟨hkey, hh, fun ha => hb (h x ha hh)⟩

theorem missing_lt {a : Config} {r : NodeName} (hr : Known c r) (hh : isHistory c r = false) (ha : r ∉ a) :
    (missing c (OrderedSet.insert r a)).card < (missing c a).card := by
  obtain ⟨nd, hnd⟩ := hr.exists
  have hkey : r ∈ c.nodes.map Prod.fst := List.mem_map.2 ⟨(r, nd), AssocMap.mem_of_lookup hnd, rfl⟩
  refine Finset.card_lt_card ((Finset.ssubset_iff_of_subset fun x hx => ?_).2 ⟨r, mem_missing.2 ⟨hkey, hh, ha⟩, ?_⟩)
  · obtain ⟨hkey', hh', hx⟩ := mem_missing.1 hx
    exact mem_missing.2 ⟨hkey', hh', fun hxa => hx (OrderedSet.mem_insert.2 (Or.inr hxa))⟩
  · exact fun hmem => (mem_missing.1 hmem).2.2 (OrderedSet.mem_insert.2 (Or.inl rfl))

/-! ## The recursion ends -/

section
variable (hw : WellFormed c) {K : Nat}
  (enter : ∀ r a, (missing c (OrderedSet.insert r a)).card < K → ∃ k b, addDescendants c hist k r a = some b)
include hw enter

theorem completeRegions_ends {p : NodeName} {a : Config} (ha : (missing c a).card ≤ K) :
    ∃ k b, completeRegions c (addDescendants c hist k) p a = some b ∧ (missing c b).card ≤ K := by
  refine foldlM_ends (I := fun a => (missing c a).card ≤ K) ?_ ?_ ha
  · intro k l a r b hkl hr
    split_ifs at hr ⊢
    · exact hr
    · exact addDescendants_mono hkl hr
  · intro r hr a ha
    by_cases hent : (a.any fun x => decide (x = r) || isDescendantOf c x r) = true
    · exact ⟨0, a, if_pos hent, ha⟩
    · obtain ⟨hknown, hh, -⟩ := hw.region_known hr
      have hra : r ∉ a := fun hmem => hent (List.any_eq_true.2 ⟨r, hmem, by simp⟩)
      obtain ⟨k, b, hb⟩ := enter r a (lt_of_lt_of_le (missing_lt hknown hh hra) ha)
      refine ⟨k, b, by rw [if_neg hent]; exact hb, ?_⟩
      exact (missing_le fun x hx _ => (entered_superset hb).1 x hx).trans ha

theorem addAncestors_ends {n upTo : NodeName} {a : Config} (ha : (missing c a).card ≤ K) :
    ∃ k b, addAncestors c (addDescendants c hist k) n upTo a = some b ∧ (missing c b).card ≤ K := by
  refine foldlM_ends (I := fun a => (missing c a).card ≤ K) ?_ ?_ ha
  · intro k l a anc b hkl hanc
    split_ifs at hanc ⊢
    · exact hanc
    · exact completeRegions_mono (fun _ _ _ => addDescendants_mono hkl) hanc
    · exact hanc
  · intro anc _ a ha
    have hins : (missing c (OrderedSet.insert anc a)).card ≤ K :=
      (missing_le fun x hx _ => OrderedSet.mem_insert.2 (Or.inr hx)).trans ha
    split_ifs
    · exact ⟨0, a, rfl, ha⟩
    · exact completeRegions_ends hw enter hins
    · exact ⟨0, _, rfl, hins⟩

end

/-- **From a grounded chart every entry ends.**  The states that are missing get
    fewer with every region, and the links lead down in between. -/
theorem entry_ends (hw : WellFormed c) (hg : Grounded c hist) (n : NodeName) (a : Config) :
    ∃ k b, addDescendants c hist k n a = some b := by
  induction hK : (missing c (OrderedSet.insert n a)).card using Nat.strongRecOn generalizing n a with
  | ind K ih =>
    have enter : ∀ r a, (missing c (OrderedSet.insert r a)).card < K → ∃ k b, addDescendants c hist k r a = some b :=
      fun r a hlt => ih _ hlt r a rfl
    have hle := hK.le
    clear hK ih
    induction hg n generalizing a with
    | intro n _ ihn =>
      cases hkind : nodeKindOf c n with
      | none => exact ⟨1, _, by rw [addDescendants, hkind]⟩
      | some kind =>
        cases kind with
        | atomic => exact ⟨1, _, by rw [addDescendants, hkind]⟩
        | final => exact ⟨1, _, by rw [addDescendants, hkind]⟩
        | parallel =>
          obtain ⟨k, b, hb, -⟩ := completeRegions_ends hw enter (p := n) hle
          refine ⟨k + 1, b, ?_⟩
          rw [addDescendants, hkind]
          exact hb
        | compound ini =>
          have hini : (missing c (OrderedSet.insert ini (OrderedSet.insert n a))).card ≤ K :=
            (missing_le fun x hx _ => OrderedSet.mem_insert.2 (Or.inr hx)).trans hle
          obtain ⟨k, a', ha'⟩ := ihn ini (.initial hkind) _ hini
          have hle' : (missing c a').card ≤ K :=
            (missing_le fun x hx _ => (entered_superset ha').1 x hx).trans hle
          obtain ⟨l, b, hb, -⟩ : ∃ l b, addAncestors c (addDescendants c hist l) ini n a' = some b ∧
              (missing c b).card ≤ K := addAncestors_ends hw enter hle'
          refine ⟨max k l + 1, b, ?_⟩
          rw [addDescendants, hkind]
          change Option.bind _ _ = _
          rw [addDescendants_mono (Nat.le_max_left k l) ha']
          exact addAncestors_mono (fun _ _ _ => addDescendants_mono (Nat.le_max_right k l)) hb
        | history kind d =>
          have hle₀ : (missing c a).card ≤ K := by
            refine (missing_le fun x hx hh => ?_).trans hle
            rcases OrderedSet.mem_insert.1 hx with rfl | hx
            · rw [isHistory, hkind] at hh
              cases hh
            · exact hx
          have targets : ∃ k a', (historyTargets c hist n d).foldlM (fun a t => addDescendants c hist k t a) a = some a' ∧
              (missing c a').card ≤ K := by
            refine foldlM_ends (f := fun k a t => addDescendants c hist k t a) (I := fun a => (missing c a).card ≤ K)
              (fun hkl h => addDescendants_mono hkl h) ?_ hle₀
            intro t ht a ha
            have hins : (missing c (OrderedSet.insert t a)).card ≤ K :=
              (missing_le fun x hx _ => OrderedSet.mem_insert.2 (Or.inr hx)).trans ha
            obtain ⟨k, b, hb⟩ := ihn t (.target hkind ht) a hins
            exact ⟨k, b, hb, (missing_le fun x hx _ => (entered_superset hb).1 x hx).trans ha⟩
          obtain ⟨k, a', ha', hle₁⟩ := targets
          have climbs : ∃ l b, (historyTargets c hist n d).foldlM
              (fun a t => addAncestors c (addDescendants c hist l) t ((parentOf c n).getD rootName) a) a' = some b ∧
              (missing c b).card ≤ K :=
            foldlM_ends (f := fun k a t => addAncestors c (addDescendants c hist k) t ((parentOf c n).getD rootName) a)
              (I := fun a => (missing c a).card ≤ K) (fun hkl h => addAncestors_mono (fun _ _ _ => addDescendants_mono hkl) h)
              (fun t _ a ha => addAncestors_ends hw enter ha) hle₁
          obtain ⟨l, b, hb, -⟩ := climbs
          refine ⟨max k l + 1, b, ?_⟩
          rw [addDescendants, hkind]
          change Option.bind _ _ = _
          rw [foldlM_mono (fun _ _ _ _ => addDescendants_mono (Nat.le_max_left k l)) ha']
          exact foldlM_mono (fun _ _ _ _ => addAncestors_mono fun _ _ _ =>
            addDescendants_mono (Nat.le_max_right k l)) hb

/-- **The entry recursion ends everywhere exactly when the links do not go round.** -/
theorem entry_ends_iff (hw : WellFormed c) :
    (∀ n a, ∃ k b, addDescendants c hist k n a = some b) ↔ Grounded c hist := by
  constructor
  · intro h n
    obtain ⟨k, b, hb⟩ := h n []
    exact acc_of_ends hb
  · exact fun hg n a => entry_ends hw hg n a

end

end Wireform.StateMachine
