/-
  The domain of a transition.

  * `domainFor_spec`: the source is in the domain, the effective targets are
    strictly below it.
-/
import Wireform.StateMachine.Over

namespace Wireform.StateMachine

section
variable {c : RChart} {hist : History}

/-! ## Domains -/

theorem effectiveTargets_known (hw : WellFormed c) (hs : ∀ h set, hist.lookup h = some set → ∀ x ∈ set, Known c x)
    {ns : List NodeName} (hns : ∀ n ∈ ns, Known c n) : ∀ e ∈ effectiveTargets c hist ns, Known c e := by
  intro e he
  obtain ⟨n, hn, hen⟩ := List.mem_flatMap.1 he
  unfold resolveTarget at hen
  split at hen
  · rename_i k d hk
    exact historyTargets_known hw hs hk e hen
  · rw [List.mem_singleton.1 hen]
    exact hns n hn

/-- A state, or the root. -/
def Place (c : RChart) (n : NodeName) : Prop := n = rootName ∨ Known c n

theorem lcca_spec (hw : WellFormed c) {n : NodeName} {ns : List NodeName} (hn : Place c n) (hns : ∀ x ∈ ns, Known c x) :
    hw.forest.In n (lcca c (n :: ns)) ∧ (∀ x ∈ ns, hw.forest.Under x (lcca c (n :: ns))) ∧
      (lcca c (n :: ns) = rootName ∨ isCompound c (lcca c (n :: ns)) = true ∨ isParallel c (lcca c (n :: ns)) = true) ∧
      (n ≠ rootName → lcca c (n :: ns) ≠ n) := by
  rw [lcca]
  cases hfind : ((properAncestors c n).filter fun a => decide (a = rootName) || isCompound c a || isParallel c a).find?
      fun a => ns.all fun x => isDescendantOf c x a with
  | none =>
    refine ⟨?_, fun x hx => hw.under_root (hns x hx), Or.inl rfl, fun hne => Ne.symm hne⟩
    rcases hn with rfl | hn
    · exact Forest.In.refl _
    · exact (hw.under_root hn).in
  | some a =>
    have hall := List.find?_some hfind
    obtain ⟨hmem, hviable⟩ := List.mem_filter.1 (List.mem_of_find?_eq_some hfind)
    have hunder := hw.mem_properAncestors.1 hmem
    refine ⟨hunder.in, fun x hx => (hw.isDescendantOf_iff (hns x hx)).1 (List.all_eq_true.1 hall x hx), ?_,
      fun _ heq => Forest.Under.ne hunder heq.symm⟩
    simpa [or_assoc] using hviable

/-- **The source is in the domain, the effective targets are below it.** -/
theorem domainFor_spec (hw : WellFormed c) (hs : ∀ h set, hist.lookup h = some set → ∀ x ∈ set, Known c x) {src : NodeName}
    {t : RTrans} (hsrc : Place c src) (ht : ∀ n ∈ t.targets, Known c n) :
    hw.forest.In src (domainFor c hist src t) ∧
      (∀ e ∈ effectiveTargets c hist t.targets, hw.forest.Under e (domainFor c hist src t)) ∧
      (domainFor c hist src t = rootName ∨ isCompound c (domainFor c hist src t) = true ∨
        isParallel c (domainFor c hist src t) = true) := by
  have heff := effectiveTargets_known hw hs ht
  unfold domainFor
  dsimp only
  split_ifs with hint
  · simp only [Bool.and_eq_true, List.all_eq_true] at hint
    obtain ⟨⟨-, hcomp⟩, hall⟩ := hint
    exact ⟨Forest.In.refl _, fun e he => (hw.isDescendantOf_iff (heff e he)).1 (hall e he), Or.inr (Or.inl hcomp)⟩
  · obtain ⟨hin, hunder, hviable, -⟩ := lcca_spec hw hsrc heff
    exact ⟨hin, hunder, hviable⟩

end

end Wireform.StateMachine
