/-
  The search for shortest paths ends and finds them.

  * `Residual`: a flow, and a small potential of its residual graph;
  * `Searching`: what holds while arcs out of one node are still to be relaxed: distances
    lie between the potential and the costs so far, only queued nodes have arcs that
    shorten, and the arcs `via` lead back to the source;
  * `Searching.relax`: one arc; `Searching.loop`: the queue;
  * `Shortest`: the distances of all nodes that can be reached;
  * `spfa_finishes`: the search ends with these.
-/
import Wireform.Kafka.Streams.MinCostFlow

namespace Wireform.Kafka.Streams.MinCostFlow

open Network (Arc)

variable {edges : List Edge} {n s : Nat} {flow x π : Nat → Int} {st : Spfa}

/-- A flow on the edges, and a potential no lower than the costs reach. -/
structure Residual (edges : List Edge) (n : Nat) (flow x π : Nat → Int) : Prop where
  ends : ∀ i < edges.length, (edgeAt edges i).eFrom < n ∧ (edgeAt edges i).eTo < n
  costs : (network edges).absCost < maxBound
  caps : ∀ i < edges.length, (edgeAt edges i).eCap ≤ maxBound
  carries : Carries flow x
  nonneg : ∀ i < edges.length, 0 ≤ x i
  le_cap : ∀ i < edges.length, x i ≤ (edgeAt edges i).eCap
  potential : (network edges).Potential x π
  bounded : ∀ v, -(network edges).absCost ≤ π v ∧ π v ≤ 0

/-- The arcs `via`, from a node back to the source. -/
def Follows (edges : List Edge) (s : Nat) (via : Nat → Int) : Nat → List Nat → Prop
  | v, [] => v = s
  | v, ix :: L => v ≠ s ∧ via v = ix ∧ Follows edges s via ((network edges).tail (arcOf ix)) L

/-- `pending` are the arcs that are still to be relaxed. -/
structure Searching (edges : List Edge) (s : Nat) (x π : Nat → Int) (pending : List Nat) (st : Spfa) : Prop where
  source : st.dist s ≤ 0
  le_max : ∀ v, st.dist v ≤ maxBound
  lower : ∀ v, π v - π s ≤ st.dist v
  queued : ∀ v ∈ st.q, st.dist v < maxBound
  inQ : ∀ v, st.inQ v = true → v ∈ st.q
  within : ∀ v, st.dist v < maxBound → st.dist v ≤ (network edges).innerCost fun w => st.dist w < maxBound
  beyond : ∀ a : Arc, a.1 < edges.length → st.dist ((network edges).tail a) < maxBound →
    st.dist ((network edges).tail a) + (network edges).arcCost a ≤
      (network edges).innerCost fun w => st.dist w < maxBound ∨ w = (network edges).head a
  settled : ∀ ix, (network edges).Open x (arcOf ix) → st.dist ((network edges).tail (arcOf ix)) < maxBound →
    st.inQ ((network edges).tail (arcOf ix)) = false → ix ∉ pending →
      st.dist ((network edges).head (arcOf ix)) ≤
        st.dist ((network edges).tail (arcOf ix)) + (network edges).arcCost (arcOf ix)
  parent : ∀ v, st.dist v < maxBound → v ≠ s → ∃ ix : Nat, st.via v = ix ∧ (network edges).Open x (arcOf ix) ∧
    (network edges).head (arcOf ix) = v ∧ st.dist ((network edges).tail (arcOf ix)) < maxBound ∧
      st.dist ((network edges).tail (arcOf ix)) + (network edges).arcCost (arcOf ix) ≤ st.dist v
  followed : ∀ v, st.dist v < maxBound → ∃ L, Follows edges s st.via v L

/-- How far the search is from its end. -/
def remaining (edges : List Edge) (n : Nat) (st : Spfa) : Nat :=
  2 * (∑ v ∈ Finset.range n, (st.dist v + (network edges).absCost).toNat) + st.q.length

/-! ## The queue -/

@[simp] theorem enqueue_dist (st : Spfa) (v : Nat) : (enqueue st v).dist = st.dist := by
  unfold enqueue
  split_ifs
  · rfl
  · rfl

@[simp] theorem enqueue_via (st : Spfa) (v : Nat) : (enqueue st v).via = st.via := by
  unfold enqueue
  split_ifs
  · rfl
  · rfl

theorem enqueue_inQ (st : Spfa) (v w : Nat) : (enqueue st v).inQ w = true ↔ st.inQ w = true ∨ w = v := by
  unfold enqueue
  split_ifs with h
  · constructor
    · exact .inl
    · rintro (hw | rfl)
      · exact hw
      · exact h
  · show Function.update st.inQ v true w = true ↔ _
    by_cases hw : w = v
    · rw [hw, Function.update_self]
      exact ⟨fun _ => .inr rfl, fun _ => rfl⟩
    · rw [Function.update_of_ne hw]
      exact ⟨.inl, fun h => h.resolve_right hw⟩

theorem mem_enqueue (st : Spfa) (hst : ∀ w, st.inQ w = true → w ∈ st.q) (v w : Nat) :
    w ∈ (enqueue st v).q ↔ w ∈ st.q ∨ w = v := by
  unfold enqueue
  split_ifs with h
  · constructor
    · exact .inl
    · rintro (hw | rfl)
      · exact hw
      · exact hst w h
  · show w ∈ st.q ++ [v] ↔ _
    rw [List.mem_append, List.mem_singleton]

theorem length_enqueue (st : Spfa) (v : Nat) : (enqueue st v).q.length ≤ st.q.length + 1 := by
  unfold enqueue
  split_ifs
  · exact Nat.le_succ _
  · show (st.q ++ [v]).length ≤ _
    rw [List.length_append, List.length_singleton]

/-! ## One arc -/

namespace Residual

theorem arcCost_le (h : Residual edges n flow x π) {a : Arc} (ha : a.1 < edges.length) :
    |(network edges).arcCost a| < maxBound := lt_of_le_of_lt (Network.abs_arcCost_le ha) h.costs

theorem open_index {ix : Nat} (h : (network edges).Open x (arcOf ix)) : ix < 2 * edges.length := by
  have hix : ix / 2 < edges.length := h.1
  omega

/-- What relaxing an arc does, without the arrays. -/
theorem relax_eq (h : Residual edges n flow x π) {ix : Nat} (hix : ix < 2 * edges.length) {du : Int}
    (hdu : (network edges).Open x (arcOf ix) → InRange (du + (network edges).arcCost (arcOf ix))) (st : Spfa) :
    relax edges flow du st ix =
      if 0 < (network edges).residual x (arcOf ix) then
        if du + (network edges).arcCost (arcOf ix) < st.dist ((network edges).head (arcOf ix)) then
          enqueue { st with
            dist := Function.update st.dist ((network edges).head (arcOf ix)) (du + (network edges).arcCost (arcOf ix))
            via := Function.update st.via ((network edges).head (arcOf ix)) ix } ((network edges).head (arcOf ix))
        else st
      else st := by
  have hlt : ix / 2 < edges.length := by omega
  have hcost : |(edgeAt edges (ix / 2)).eCost| ≤ maxBound := by
    have hle := le_of_lt (h.arcCost_le (a := arcOf ix) hlt)
    rw [Network.abs_arcCost] at hle
    exact hle
  unfold relax
  dsimp only
  rw [residual_eq h.carries hix (h.caps _ hlt) (h.nonneg _ hlt) (h.le_cap _ hlt), toA_getD hix, cost_getD hcost hix]
  by_cases hopen : 0 < (network edges).residual x (arcOf ix)
  · rw [if_pos hopen, if_pos hopen, addInt_eq (hdu ⟨hlt, hopen⟩)]
  · rw [if_neg hopen, if_neg hopen]

/-- The sum of the distances falls with one of them. -/
theorem remaining_shorten (h : Residual edges n flow x π) (hs : π s ≤ 0) {v k : Nat} {d : Int} (hv : v < n)
    (hlow : π v - π s ≤ d) (hd : d < st.dist v) :
    remaining edges n (enqueue { st with dist := Function.update st.dist v d, via := Function.update st.via v k } v) <
      remaining edges n st := by
  obtain ⟨dist, hdist⟩ : ∃ dist, dist = Function.update st.dist v d := ⟨_, rfl⟩
  have hself : dist v = d := by rw [hdist, Function.update_self]
  have hlen := length_enqueue { st with dist := dist, via := Function.update st.via v k } v
  have hvmem := Finset.mem_range.2 hv
  have hrest : ∑ w ∈ (Finset.range n).erase v, (dist w + (network edges).absCost).toNat =
      ∑ w ∈ (Finset.range n).erase v, (st.dist w + (network edges).absCost).toNat :=
    Finset.sum_congr rfl fun w hw => by rw [hdist, Function.update_of_ne (Finset.ne_of_mem_erase hw)]
  have hbound := (h.bounded v).1
  rw [← hdist, remaining, remaining, enqueue_dist, ← Finset.add_sum_erase _ _ hvmem, ← Finset.add_sum_erase _ _ hvmem,
    hrest]
  show 2 * ((dist v + (network edges).absCost).toNat + _) + _ < _
  rw [hself]
  have hlt : (d + (network edges).absCost).toNat < (st.dist v + (network edges).absCost).toNat := by omega
  dsimp only at hlen
  omega

theorem head_lt (h : Residual edges n flow x π) {a : Arc} (ha : a.1 < edges.length) : (network edges).head a < n := by
  obtain ⟨hfrom, hto⟩ := h.ends a.1 ha
  unfold Network.head
  split_ifs
  · exact hto
  · exact hfrom

end Residual

theorem Follows.keep {via : Nat → Int} {v w : Nat} {L : List Nat} {k : Int} {ρ : Nat → Int}
    (hρ : ∀ w ix, w ≠ s → st.dist w < maxBound → via w = (ix : Nat) →
      st.dist ((network edges).tail (arcOf ix)) < maxBound ∧ ρ ((network edges).tail (arcOf ix)) ≤ ρ w)
    (hw : st.dist w < maxBound) (hL : Follows edges s via w L) :
    Follows edges s (Function.update via v k) w L ∨ ρ v ≤ ρ w := by
  induction L generalizing w with
  | nil => exact .inl hL
  | cons ix L ih =>
    obtain ⟨hws, hvia, hL⟩ := hL
    by_cases hwv : w = v
    · rw [hwv]
      exact .inr (le_refl _)
    · obtain ⟨htail, hle⟩ := hρ w ix hws hw hvia
      rcases ih htail hL with h | h
      · exact .inl ⟨hws, by rw [Function.update_of_ne hwv]; exact hvia, h⟩
      · exact .inr (le_trans h hle)

/-- Another way to `v` leads every node back on. -/
theorem Follows.replace {via : Nat → Int} {v w : Nat} {L Lv : List Nat} {k : Int}
    (hv : Follows edges s (Function.update via v k) v Lv) (hL : Follows edges s via w L) :
    ∃ L', Follows edges s (Function.update via v k) w L' := by
  induction L generalizing w with
  | nil => exact ⟨[], hL⟩
  | cons ix L ih =>
    obtain ⟨hws, hvia, hL⟩ := hL
    by_cases hwv : w = v
    · rw [hwv]
      exact ⟨Lv, hv⟩
    · obtain ⟨L', hL'⟩ := ih hL
      exact ⟨ix :: L', hws, by rw [Function.update_of_ne hwv]; exact hvia, hL'⟩

namespace Searching

section
variable {pending : List Nat} {ix : Nat}

/-- A distance through an arc stays in the range of the machine. -/
theorem inRange (h : Residual edges n flow x π) (hst : Searching edges s x π pending st) {a : Arc}
    (ha : (network edges).Open x a) (htail : st.dist ((network edges).tail a) < maxBound) :
    π ((network edges).head a) - π s ≤ st.dist ((network edges).tail a) + (network edges).arcCost a ∧
      st.dist ((network edges).tail a) + (network edges).arcCost a ≤ (network edges).absCost := by
  have hpot := h.potential a ha
  have hlow := hst.lower ((network edges).tail a)
  exact ⟨by omega, le_trans (hst.beyond a ha.1 htail) Network.innerCost_le⟩

/-- **An arc that shortens**: its head gets the new distance and is queued. -/
theorem shorten (h : Residual edges n flow x π) (hst : Searching edges s x π (ix :: pending) st)
    (hopen : (network edges).Open x (arcOf ix)) {u v : Nat} {c : Int} (hu : (network edges).tail (arcOf ix) = u)
    (hv : (network edges).head (arcOf ix) = v) (hc : (network edges).arcCost (arcOf ix) = c)
    (htail : st.dist u < maxBound) (hlt : st.dist u + c < st.dist v) :
    Searching edges s x π pending (enqueue { st with
      dist := Function.update st.dist v (st.dist u + c), via := Function.update st.via v ix } v) := by
  obtain ⟨hnd, -⟩ := hst.inRange h hopen (by rw [hu]; exact htail)
  have hpot := h.potential _ hopen
  rw [hu, hv, hc] at hnd hpot
  have hmax := hst.le_max v
  have huv : v ≠ u := by
    rintro rfl
    omega
  have hvs : v ≠ s := by
    rintro rfl
    have := hst.source
    omega
  -- the new distances
  obtain ⟨dist, hdist⟩ : ∃ dist, dist = Function.update st.dist v (st.dist u + c) := ⟨_, rfl⟩
  have hself : dist v = st.dist u + c := by rw [hdist, Function.update_self]
  have hne : ∀ w, w ≠ v → dist w = st.dist w := fun w hw => by rw [hdist, Function.update_of_ne hw]
  have hle : ∀ w, dist w ≤ st.dist w := fun w => by
    by_cases hw : w = v
    · rw [hw, hself]
      exact le_of_lt hlt
    · rw [hne w hw]
  have hreached : ∀ w, st.dist w < maxBound → dist w < maxBound := fun w hw => lt_of_le_of_lt (hle w) hw
  have hvreached : dist v < maxBound := by omega
  have hu' : dist u = st.dist u := hne u (Ne.symm huv)
  rw [← hdist]
  have hmem : ∀ w, w ∈ (enqueue { st with dist := dist, via := Function.update st.via v ix } v).q ↔ w ∈ st.q ∨ w = v :=
    mem_enqueue { st with dist := dist, via := Function.update st.via v ix } hst.inQ v
  -- a node reached now that was not before is the head of the arc
  have hnew : ∀ w, dist w < maxBound → ¬st.dist w < maxBound → w = v := fun w hw hw' => by
    by_contra hwv
    rw [hne w hwv] at hw
    exact hw' hw
  refine
    { source := ?source, le_max := ?le_max, lower := ?lower, queued := ?queued, inQ := ?inQ, within := ?within,
      beyond := ?beyond, settled := ?settled, parent := ?parent, followed := ?followed }
  case source =>
    rw [enqueue_dist]
    exact le_trans (hle s) hst.source
  case le_max =>
    intro w
    rw [enqueue_dist]
    exact le_trans (hle w) (hst.le_max w)
  case lower =>
    intro w
    rw [enqueue_dist]
    show π w - π s ≤ dist w
    by_cases hw : w = v
    · rw [hw, hself]
      exact hnd
    · rw [hne w hw]
      exact hst.lower w
  case queued =>
    intro w hw
    rw [enqueue_dist]
    rcases (hmem w).1 hw with hw | rfl
    · exact hreached w (hst.queued w hw)
    · exact hvreached
  case inQ =>
    intro w hw
    rcases (enqueue_inQ _ v w).1 hw with hw | rfl
    · exact (hmem w).2 (.inl (hst.inQ w hw))
    · exact (hmem w).2 (.inr rfl)
  case within =>
    intro w hw
    simp only [enqueue_dist] at hw ⊢
    by_cases hwv : w = v
    · have hle' := hst.beyond (arcOf ix) hopen.1 (by rw [hu]; exact htail)
      rw [hu, hc] at hle'
      rw [hwv, hself]
      refine le_trans hle' (Network.innerCost_mono fun w hw => ?_)
      rcases hw with hw | hw
      · exact hreached w hw
      · rw [hw, hv]
        exact hvreached
    · rw [hne w hwv] at hw ⊢
      exact le_trans (hst.within w hw) (Network.innerCost_mono hreached)
  case beyond =>
    intro a ha hw
    simp only [enqueue_dist] at hw ⊢
    by_cases hwv : (network edges).tail a = v
    · by_cases hold : st.dist v < maxBound
      · have hle' := hst.beyond a ha (by rw [hwv]; exact hold)
        rw [hwv] at hle' ⊢
        have hless := hle v
        refine le_trans (by omega) (le_trans hle' (Network.innerCost_mono fun w hw => ?_))
        exact hw.imp (hreached w) id
      · -- the head was not reached: its edges are not yet between reached nodes
        have hwithin := hst.within u htail
        rw [hwv, hself]
        by_cases hedge : a.1 = ix / 2
        · have hflip : a = Network.flip (arcOf ix) := by
            by_contra hno
            have hsame : a = arcOf ix := by
              refine Prod.ext hedge ?_
              by_contra hdir
              refine hno (Prod.ext hedge ?_)
              exact Bool.eq_not_of_ne hdir
            rw [hsame, hu] at hwv
            exact huv hwv.symm
          rw [hflip, Network.arcCost_flip, hc]
          refine le_trans (by omega) (le_trans hwithin (Network.innerCost_mono fun w hw => .inl (hreached w hw)))
        · have hadd : ((network edges).innerCost fun w => st.dist w < maxBound) + (|c| + |(network edges).arcCost a|) ≤
              (network edges).innerCost fun w => dist w < maxBound ∨ w = (network edges).head a := by
            rw [← hc]
            refine Network.innerCost_add_arcs (fun w hw => .inl (hreached w hw)) (Ne.symm hedge) hopen.1 ha ?_ ?_ ?_ ?_
            · rw [hv]
              exact hold
            · rw [hwv]
              exact hold
            · rw [hu, hv]
              exact ⟨.inl (hreached u htail), .inl hvreached⟩
            · rw [hwv]
              exact ⟨.inl hvreached, .inr rfl⟩
          have h₁ := le_abs_self c
          have h₂ := le_abs_self ((network edges).arcCost a)
          omega
    · have hw' : st.dist ((network edges).tail a) < maxBound := by
        rw [← hne _ hwv]
        exact hw
      rw [hne _ hwv]
      exact le_trans (hst.beyond a ha hw') (Network.innerCost_mono fun w hw => hw.imp (hreached w) id)
  case settled =>
    intro jx hjx htail' hq hpend
    rw [enqueue_dist] at htail' ⊢
    have hq' : ¬(st.inQ ((network edges).tail (arcOf jx)) = true ∨ (network edges).tail (arcOf jx) = v) := by
      rw [← enqueue_inQ { st with dist := dist, via := Function.update st.via v ix } v, hq]
      exact Bool.false_ne_true
    rw [not_or] at hq'
    show dist _ ≤ dist _ + _
    rw [hne _ hq'.2]
    by_cases hjix : jx = ix
    · subst hjix
      rw [hu, hv, hc, hself]
    · refine le_trans (hle _) (hst.settled jx hjx ?_ (Bool.eq_false_iff.2 hq'.1) ?_)
      · rw [← hne _ hq'.2]
        exact htail'
      · rw [List.mem_cons, not_or]
        exact ⟨hjix, hpend⟩
  case parent =>
    intro w hw hws
    rw [enqueue_dist] at hw ⊢
    rw [enqueue_via]
    show ∃ jx : Nat, Function.update st.via v ix w = jx ∧ _ ∧ _ ∧ dist _ < maxBound ∧ dist _ + _ ≤ dist w
    by_cases hwv : w = v
    · subst hwv
      refine ⟨ix, Function.update_self _ _ _, hopen, hv, ?_, ?_⟩
      · rw [hu]
        exact hreached u htail
      · rw [hu, hc, hself, hu']
    · have hw' : st.dist w < maxBound := by
        rw [← hne w hwv]
        exact hw
      obtain ⟨jx, hvia, hjx, hhead, htail', hle'⟩ := hst.parent w hw' hws
      refine ⟨jx, by rw [Function.update_of_ne hwv]; exact hvia, hjx, hhead, hreached _ htail', ?_⟩
      rw [hne w hwv]
      have := hle ((network edges).tail (arcOf jx))
      omega
  case followed =>
    have hρ : ∀ w jx, w ≠ s → st.dist w < maxBound → st.via w = (jx : Nat) →
        st.dist ((network edges).tail (arcOf jx)) < maxBound ∧
          st.dist ((network edges).tail (arcOf jx)) - π ((network edges).tail (arcOf jx)) ≤ st.dist w - π w := by
      intro w jx hws hw hvia
      obtain ⟨kx, hvia', hkx, hhead, htail', hle'⟩ := hst.parent w hw hws
      have hjk : jx = kx := Int.ofNat.inj (hvia.symm.trans hvia')
      subst hjk
      have := h.potential _ hkx
      rw [hhead] at this
      exact ⟨htail', by omega⟩
    intro w hw
    rw [enqueue_dist] at hw
    rw [enqueue_via]
    obtain ⟨Lu, hLu⟩ := hst.followed u htail
    -- the way to `u` does not lead through `v`: the cycle would cost less than nothing
    have hv' : Follows edges s (Function.update st.via v ix) v (ix :: Lu) := by
      rcases hLu.keep (v := v) (k := (ix : Int)) (ρ := fun w => st.dist w - π w) hρ htail with hkeep | hcycle
      · refine ⟨hvs, Function.update_self _ _ _, ?_⟩
        rw [hu]
        exact hkeep
      · omega
    by_cases hwv : w = v
    · rw [hwv]
      exact ⟨_, hv'⟩
    · obtain ⟨Lw, hLw⟩ := hst.followed w (by rw [← hne w hwv]; exact hw)
      exact hv'.replace hLw

/-- An arc that does not shorten is settled. -/
theorem keep (hst : Searching edges s x π (ix :: pending) st)
    (hix : (network edges).Open x (arcOf ix) → st.dist ((network edges).head (arcOf ix)) ≤
      st.dist ((network edges).tail (arcOf ix)) + (network edges).arcCost (arcOf ix)) :
    Searching edges s x π pending st :=
  { hst with
    settled := fun jx hjx htail hq hpend => by
      by_cases h : jx = ix
      · subst h
        exact hix hjx
      · exact hst.settled jx hjx htail hq (by rw [List.mem_cons, not_or]; exact ⟨h, hpend⟩) }

/-- **One arc** out of a reached node is relaxed. -/
theorem relax (h : Residual edges n flow x π) (hst : Searching edges s x π (ix :: pending) st)
    (hix : ix < 2 * edges.length) (htail : st.dist ((network edges).tail (arcOf ix)) < maxBound) :
    let st' := MinCostFlow.relax edges flow (st.dist ((network edges).tail (arcOf ix))) st ix
    Searching edges s x π pending st' ∧ remaining edges n st' ≤ remaining edges n st ∧
      st'.dist ((network edges).tail (arcOf ix)) = st.dist ((network edges).tail (arcOf ix)) := by
  intro st'
  have hedge : (arcOf ix).1 < edges.length := by
    show ix / 2 < edges.length
    omega
  have hrange : (network edges).Open x (arcOf ix) →
      InRange (st.dist ((network edges).tail (arcOf ix)) + (network edges).arcCost (arcOf ix)) := by
    intro hopen
    obtain ⟨hlow, hup⟩ := hst.inRange h hopen htail
    have hπ := h.bounded ((network edges).head (arcOf ix))
    have hπs := h.bounded s
    have hcosts := h.costs
    unfold maxBound at hcosts
    unfold InRange
    omega
  by_cases hopen : (network edges).Open x (arcOf ix)
  · by_cases hlt : st.dist ((network edges).tail (arcOf ix)) + (network edges).arcCost (arcOf ix) <
        st.dist ((network edges).head (arcOf ix))
    · have hst' : st' = _ := h.relax_eq hix hrange st
      rw [if_pos hopen.2, if_pos hlt] at hst'
      obtain ⟨hlow, -⟩ := hst.inRange h hopen htail
      have hpot := h.potential _ hopen
      have hne : (network edges).tail (arcOf ix) ≠ (network edges).head (arcOf ix) := by
        intro heq
        rw [heq] at hlt hpot
        omega
      refine ⟨hst' ▸ hst.shorten h hopen rfl rfl rfl htail hlt, hst' ▸ le_of_lt ?_, ?_⟩
      · exact h.remaining_shorten (h.bounded s).2 (h.head_lt hedge) hlow hlt
      · rw [hst', enqueue_dist]
        exact Function.update_of_ne hne _ _
    · have hst' : st' = st := by
        rw [show st' = _ from h.relax_eq hix hrange st, if_pos hopen.2, if_neg hlt]
      rw [hst']
      exact ⟨hst.keep fun _ => not_lt.1 hlt, le_refl _, rfl⟩
  · have hst' : st' = st := by
      rw [show st' = _ from h.relax_eq hix hrange st, if_neg fun hpos => hopen ⟨hedge, hpos⟩]
    rw [hst']
    exact ⟨hst.keep fun h => absurd h hopen, le_refl _, rfl⟩

/-- **The arcs out of a reached node**, one after another. -/
theorem relaxAll (h : Residual edges n flow x π) {u : Nat} {L : List Nat} (hst : Searching edges s x π L st)
    (hL : ∀ ix ∈ L, ix < 2 * edges.length ∧ (network edges).tail (arcOf ix) = u) (hu : st.dist u < maxBound) :
    let st' := L.foldl (MinCostFlow.relax edges flow (st.dist u)) st
    Searching edges s x π [] st' ∧ remaining edges n st' ≤ remaining edges n st := by
  induction L generalizing st with
  | nil => exact ⟨hst, le_refl _⟩
  | cons ix L ih =>
    obtain ⟨hix, htail⟩ := hL ix List.mem_cons_self
    obtain ⟨h₁, hle, hdist⟩ := hst.relax h hix (by rw [htail]; exact hu)
    rw [htail] at h₁ hle hdist
    have hrest := ih h₁ (fun jx hjx => hL jx (List.mem_cons_of_mem _ hjx)) (by rw [hdist]; exact hu)
    rw [hdist] at hrest
    exact ⟨hrest.1, le_trans hrest.2 hle⟩

/-- Taking a node from the queue leaves its arcs to be relaxed. -/
theorem pop (hst : Searching edges s x π [] st) {u : Nat} {rest L : List Nat} (hq : st.q = u :: rest)
    (hL : ∀ ix, ix < 2 * edges.length → (network edges).tail (arcOf ix) = u → ix ∈ L) :
    Searching edges s x π L { st with q := rest, inQ := Function.update st.inQ u false } :=
  { hst with
    queued := fun v hv => hst.queued v (by rw [hq]; exact List.mem_cons_of_mem _ hv)
    inQ := fun v hv => by
      change Function.update st.inQ u false v = true at hv
      have hvu : v ≠ u := by
        rintro rfl
        rw [Function.update_self] at hv
        cases hv
      rw [Function.update_of_ne hvu] at hv
      have hmem := hst.inQ v hv
      rw [hq] at hmem
      exact (List.mem_cons.1 hmem).resolve_left hvu
    settled := fun ix hix htail hinQ hpend => by
      have htailu : (network edges).tail (arcOf ix) ≠ u := fun htu => hpend (hL ix (Residual.open_index hix) htu)
      refine hst.settled ix hix htail ?_ List.not_mem_nil
      rw [← hinQ]
      exact (Function.update_of_ne htailu _ _).symm }

/-! ## The queue runs empty -/

/-- **The search ends**, with nothing queued. -/
theorem loop_finishes (h : Residual edges n flow x π) (hst : Searching edges s x π [] st) :
    ∃ st', Finishes (fun fuel => loop edges flow fuel st) st' ∧ Searching edges s x π [] st' ∧ st'.q = [] := by
  induction hm : remaining edges n st using Nat.strong_induction_on generalizing st with
  | _ m ih =>
    cases hq : st.q with
    | nil =>
      refine ⟨st, (Finishes.const st).turn fun fuel => ?_, hst, hq⟩
      rw [loop, hq]
    | cons u rest =>
      obtain ⟨L, hL, hmem⟩ := adjacency_holds edges u
      have hu : st.dist u < maxBound := hst.queued u (by rw [hq]; exact List.mem_cons_self)
      have hpop := hst.pop hq fun ix hix htail => (hmem ix).2 ⟨hix, htail⟩
      obtain ⟨hnext, hle⟩ := hpop.relaxAll h (fun ix hix => (hmem ix).1 hix) hu
      have hlt : remaining edges n { st with q := rest, inQ := Function.update st.inQ u false } < m := by
        rw [← hm, remaining, remaining, hq, List.length_cons]
        dsimp only
        omega
      obtain ⟨st', hfinishes, hst', hq'⟩ := ih _ (lt_of_le_of_lt hle hlt) hnext rfl
      have hwalk := walk_finishes flow (st.dist u) hL { st with q := rest, inQ := Function.update st.inQ u false }
      refine ⟨st', (hwalk.bind (g := fun st fuel => loop edges flow fuel st) hfinishes).turn fun fuel => ?_, hst', hq'⟩
      rw [loop, hq]

theorem start (h : Residual edges n flow x π) (s : Nat) : Searching edges s x π [] (MinCostFlow.start s) := by
  have hself : (MinCostFlow.start s).dist s = 0 := by simp [MinCostFlow.start]
  have hne : ∀ v, v ≠ s → (MinCostFlow.start s).dist v = maxBound := fun v hv => by
    simp [MinCostFlow.start, hv]
  have hreached : ∀ v, (MinCostFlow.start s).dist v < maxBound → v = s := fun v hv => by
    by_contra hvs
    rw [hne v hvs] at hv
    exact lt_irrefl _ hv
  have hmax : (0 : Int) < maxBound := by decide
  have hπs := h.bounded s
  have hcosts := h.costs
  refine
    { source := le_of_eq hself, le_max := fun v => ?le_max, lower := fun v => ?lower, queued := fun v hv => ?queued,
      inQ := fun v hv => ?inQ, within := fun v hv => ?within, beyond := fun a ha hv => ?beyond,
      settled := fun ix _ htail hq _ => ?settled, parent := fun v hv hvs => absurd (hreached v hv) hvs,
      followed := fun v hv => ⟨[], hreached v hv⟩ }
  case le_max =>
    by_cases hvs : v = s
    · rw [hvs, hself]
      exact le_of_lt hmax
    · rw [hne v hvs]
  case lower =>
    have hπ := h.bounded v
    by_cases hvs : v = s
    · rw [hvs, hself]
      omega
    · rw [hne v hvs]
      omega
  case queued =>
    rw [List.mem_singleton.1 hv, hself]
    exact hmax
  case inQ =>
    by_cases hvs : v = s
    · exact List.mem_singleton.2 hvs
    · have hfalse : (MinCostFlow.start s).inQ v = false := by simp [MinCostFlow.start, hvs]
      rw [hfalse] at hv
      cases hv
  case within =>
    rw [hreached v hv, hself]
    exact Network.innerCost_nonneg
  case beyond =>
    rw [hreached _ hv, hself, zero_add]
    refine le_trans (le_abs_self _) (Network.abs_arcCost_le_innerCost ha ⟨.inl hv, .inr rfl⟩)
  case settled =>
    have htrue : (MinCostFlow.start s).inQ s = true := by simp [MinCostFlow.start]
    rw [hreached _ htail, htrue] at hq
    cases hq

end

end Searching

/-- Distances of all nodes that the open arcs reach, and ways back from them. -/
structure Shortest (edges : List Edge) (s : Nat) (x : Nat → Int) (st : Spfa) : Prop where
  source : st.dist s < maxBound
  le_max : ∀ v, st.dist v ≤ maxBound
  closed : ∀ a, (network edges).Open x a → st.dist ((network edges).tail a) < maxBound →
    st.dist ((network edges).head a) < maxBound ∧
      st.dist ((network edges).head a) ≤ st.dist ((network edges).tail a) + (network edges).arcCost a
  parent : ∀ v, st.dist v < maxBound → v ≠ s → ∃ ix : Nat, st.via v = ix ∧ (network edges).Open x (arcOf ix) ∧
    (network edges).head (arcOf ix) = v ∧ st.dist ((network edges).tail (arcOf ix)) < maxBound ∧
      st.dist v = st.dist ((network edges).tail (arcOf ix)) + (network edges).arcCost (arcOf ix)
  followed : ∀ v, st.dist v < maxBound → ∃ L, Follows edges s st.via v L

/-- **The search ends with the shortest paths.** -/
theorem spfa_finishes (h : Residual edges n flow x π) (s : Nat) :
    ∃ st, Finishes (spfa edges s flow) st ∧ Shortest edges s x st := by
  obtain ⟨st, hfinishes, hst, hq⟩ := Searching.loop_finishes h (Searching.start h s)
  have hcosts := h.costs
  have hclosed : ∀ a, (network edges).Open x a → st.dist ((network edges).tail a) < maxBound →
      st.dist ((network edges).head a) < maxBound ∧
        st.dist ((network edges).head a) ≤ st.dist ((network edges).tail a) + (network edges).arcCost a := by
    intro a ha htail
    obtain ⟨ix, rfl⟩ := exists_arcOf a
    have hidle : st.inQ ((network edges).tail (arcOf ix)) = false := by
      refine Bool.eq_false_iff.2 fun hin => ?_
      have hmem := hst.inQ _ hin
      rw [hq] at hmem
      cases hmem
    have hle := hst.settled ix ha htail hidle List.not_mem_nil
    exact ⟨lt_of_le_of_lt (le_trans hle (hst.inRange h ha htail).2) hcosts, hle⟩
  refine ⟨st, hfinishes, lt_of_le_of_lt hst.source (by decide), hst.le_max, hclosed, fun v hv hvs => ?_, hst.followed⟩
  obtain ⟨ix, hvia, hopen, hhead, htail, hle⟩ := hst.parent v hv hvs
  have hge := (hclosed _ hopen htail).2
  rw [hhead] at hge
  exact ⟨ix, hvia, hopen, hhead, htail, le_antisymm hge hle⟩

end Wireform.Kafka.Streams.MinCostFlow
