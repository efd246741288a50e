/-
  Successive shortest paths give a maximum flow of least cost.

  * `Follows.unique`, `Shortest.path`: the arcs `via` lead back to the source along a path
    that takes no edge twice;
  * `bottleneck_finishes`, `push_finishes`: the room on the path, and the flow along it;
  * `augment_finishes`: each turn keeps a feasible flow with a potential and raises its
    value, and where the sink is not reached the flow is optimal;
  * `minCostFlow_optimal`: the whole.
-/
import Wireform.Kafka.Streams.ShortestPaths

namespace Wireform.Kafka.Streams.MinCostFlow

open Network (Arc)

variable {edges : List Edge} {n s t : Nat} {flow x π : Nat → Int} {st : Spfa} {via : Nat → Int}

/-! ## The way back -/

theorem Follows.unique {v : Nat} {L L' : List Nat} (h : Follows edges s via v L) (h' : Follows edges s via v L') :
    L = L' := by
  induction L generalizing v L' with
  | nil =>
    cases L' with
    | nil => rfl
    | cons ix L' => exact absurd h h'.1
  | cons ix L ih =>
    cases L' with
    | nil => exact absurd h' h.1
    | cons jx L' =>
      obtain ⟨-, hvia, h⟩ := h
      obtain ⟨-, hvia', h'⟩ := h'
      have hix : ix = jx := Int.ofNat.inj (hvia.symm.trans hvia')
      subst hix
      rw [ih h h']

namespace Shortest

/-- The way back is a path of open arcs of which each is on a shortest path. -/
theorem path (hst : Shortest edges s x st) {v : Nat} {L : List Nat} (hv : st.dist v < maxBound)
    (hL : Follows edges s st.via v L) :
    (network edges).BackPath s v (L.map arcOf) ∧ ∀ ix ∈ L, (network edges).Open x (arcOf ix) ∧
      st.dist ((network edges).tail (arcOf ix)) < maxBound ∧
        st.dist ((network edges).head (arcOf ix)) =
          st.dist ((network edges).tail (arcOf ix)) + (network edges).arcCost (arcOf ix) ∧
        ∃ L', ix :: L' <:+ L ∧ Follows edges s st.via ((network edges).head (arcOf ix)) (ix :: L') := by
  induction L generalizing v with
  | nil => exact ⟨hL, fun ix hix => absurd hix List.not_mem_nil⟩
  | cons ix L ih =>
    obtain ⟨hvs, hvia, hrest⟩ := id hL
    obtain ⟨jx, hvia', hopen, hhead, htail, hdist⟩ := hst.parent v hv hvs
    have hjx : ix = jx := Int.ofNat.inj (hvia.symm.trans hvia')
    subst hjx
    obtain ⟨hpath, harcs⟩ := ih htail hrest
    refine ⟨⟨hhead, hpath⟩, fun kx hkx => ?_⟩
    rcases List.mem_cons.1 hkx with rfl | hkx
    · rw [hhead]
      exact ⟨hopen, htail, hdist, L, List.suffix_refl _, hL⟩
    · obtain ⟨ho, ht, hd, L', hsuffix, hfollows⟩ := harcs kx hkx
      exact ⟨ho, ht, hd, L', hsuffix.trans (List.suffix_cons _ _), hfollows⟩

/-- The path takes no edge twice, nor one and its reverse. -/
theorem path_nodup (hst : Shortest edges s x st) {v : Nat} {L : List Nat} (hv : st.dist v < maxBound)
    (hL : Follows edges s st.via v L) : ((L.map arcOf).map Prod.fst).Nodup := by
  induction L generalizing v with
  | nil => exact List.nodup_nil
  | cons ix L ih =>
    obtain ⟨hpath, harcs⟩ := hst.path hv hL
    obtain ⟨hopen, htail, -, -⟩ := harcs ix List.mem_cons_self
    have hrest : Follows edges s st.via ((network edges).tail (arcOf ix)) L := hL.2.2
    rw [List.map_cons, List.map_cons, List.nodup_cons]
    refine ⟨fun hmem => ?_, ih htail hrest⟩
    rw [List.map_map] at hmem
    obtain ⟨jx, hjx, hedge⟩ := List.mem_map.1 hmem
    obtain ⟨-, -, -, L', hsuffix, hfollows⟩ := (hst.path htail hrest).2 jx hjx
    have hlen := hsuffix.length_le
    rw [List.length_cons] at hlen
    have hedge : jx / 2 = ix / 2 := hedge
    by_cases hix : jx = ix
    · subst hix
      rw [hpath.1] at hfollows
      have heq := congrArg List.length (hfollows.unique hL)
      simp only [List.length_cons] at heq
      omega
    · have hflip : arcOf jx = Network.flip (arcOf ix) := by
        rw [← arcOf_opposite]
        congr 1
        unfold opposite
        split_ifs
        · omega
        · omega
      rw [hflip, Network.head_flip] at hfollows
      have hsame := congrArg List.length (hfollows.unique hrest)
      have hback : Follows edges s st.via ((network edges).tail (arcOf jx)) L' := hfollows.2.2
      rw [hflip, Network.tail_flip, hpath.1] at hback
      have heq := congrArg List.length (hback.unique hL)
      simp only [List.length_cons] at heq hsame
      omega

end Shortest

/-! ## The flow along the path -/

/-- The edges of a path can carry more, and the machine can hold what they carry. -/
structure Roomy (edges : List Edge) (x : Nat → Int) (ix : Nat) : Prop where
  lt : ix < 2 * edges.length
  cap_le : (edgeAt edges (ix / 2)).eCap ≤ maxBound
  nonneg : 0 ≤ x (ix / 2)
  le_cap : x (ix / 2) ≤ (edgeAt edges (ix / 2)).eCap

theorem Roomy.residual_eq {ix : Nat} (h : Roomy edges x ix) (hflow : Carries flow x) :
    residual edges flow ix = (network edges).residual x (arcOf ix) :=
  MinCostFlow.residual_eq hflow h.lt h.cap_le h.nonneg h.le_cap

theorem toA_opposite {ix : Nat} (h : ix < 2 * edges.length) :
    (toA edges).getD (opposite ix) 0 = (network edges).tail (arcOf ix) := by
  rw [toA_getD (opposite_lt h), arcOf_opposite, Network.head_flip]

/-- The least room on the path. -/
theorem bottleneck_finishes (hflow : Carries flow x) {v : Nat} {L : List Nat} (hL : Follows edges s via v L)
    (hroom : ∀ ix ∈ L, Roomy edges x ix) (acc : Int) :
    Finishes (fun fuel => bottleneck edges s flow via fuel v acc)
      (L.foldl (fun acc ix => min acc ((network edges).residual x (arcOf ix))) acc) := by
  induction L generalizing v acc with
  | nil =>
    have hv : v = s := hL
    exact (Finishes.const acc).turn fun fuel => by rw [bottleneck, if_pos hv]
  | cons ix L ih =>
    obtain ⟨hvs, hvia, hL⟩ := hL
    have hix := hroom ix List.mem_cons_self
    refine (ih hL (fun jx hjx => hroom jx (List.mem_cons_of_mem _ hjx)) _).turn fun fuel => ?_
    rw [bottleneck, if_neg hvs]
    dsimp only
    rw [hvia, Int.toNat_natCast, toA_opposite hix.lt, hix.residual_eq hflow]

theorem foldl_min_le (r : Nat → Int) (L : List Nat) {acc : Int} (hacc : 0 < acc) (hr : ∀ ix ∈ L, 0 < r ix) :
    0 < L.foldl (fun acc ix => min acc (r ix)) acc ∧ L.foldl (fun acc ix => min acc (r ix)) acc ≤ acc ∧
      ∀ ix ∈ L, L.foldl (fun acc ix => min acc (r ix)) acc ≤ r ix := by
  induction L generalizing acc with
  | nil => exact ⟨hacc, le_refl _, fun ix hix => absurd hix List.not_mem_nil⟩
  | cons ix L ih =>
    obtain ⟨hpos, hle, hall⟩ := ih (lt_min hacc (hr ix List.mem_cons_self))
      fun jx hjx => hr jx (List.mem_cons_of_mem _ hjx)
    refine ⟨hpos, le_trans hle (min_le_left _ _), fun jx hjx => ?_⟩
    rcases List.mem_cons.1 hjx with rfl | hjx
    · exact le_trans hle (min_le_right _ _)
    · exact hall jx hjx

/-- One arc of the path. -/
theorem Carries.push (hflow : Carries flow x) {ix : Nat} (hix : Roomy edges x ix) {amt : Int} (hpos : 0 < amt)
    (hroom : amt ≤ (network edges).residual x (arcOf ix)) :
    let flow' := Function.update flow ix (addInt (flow ix) amt)
    Carries (Function.update flow' (opposite ix) (subInt (flow' (opposite ix)) amt))
      (Network.pushArc amt x (arcOf ix)) := by
  intro flow'
  obtain ⟨hlt, hcap, h₀, h₁⟩ := hix
  obtain ⟨heven, hodd⟩ := hflow (ix / 2)
  unfold maxBound at hcap
  have hopp : opposite ix ≠ ix := by
    unfold opposite
    split_ifs
    · omega
    · omega
  have hflow' : flow' (opposite ix) = flow (opposite ix) := Function.update_of_ne hopp _ _
  have hself : flow' ix = addInt (flow ix) amt := Function.update_self _ _ _
  intro i
  by_cases hi : i = ix / 2
  · subst hi
    have hpush : Network.pushArc amt x (arcOf ix) (ix / 2) = if (arcOf ix).2 then x (ix / 2) + amt else x (ix / 2) - amt :=
      Function.update_self _ _ _
    rw [hpush, hflow']
    unfold Network.residual at hroom
    by_cases hev : ix % 2 = 0
    · have hdir : (arcOf ix).2 = true := decide_eq_true hev
      have hopp' : opposite ix = ix + 1 := if_pos hev
      have hix2 : 2 * (ix / 2) = ix := by omega
      rw [if_pos hdir] at hroom ⊢
      have hroom : amt ≤ (edgeAt edges (ix / 2)).eCap - x (ix / 2) := hroom
      rw [hix2] at heven hodd ⊢
      rw [hopp', Function.update_of_ne (by omega), Function.update_self, hself, heven, hodd, addInt_eq, subInt_eq]
      · exact ⟨rfl, by omega⟩
      · unfold InRange
        omega
      · unfold InRange
        omega
    · have hdir : ¬(arcOf ix).2 = true := by simpa [arcOf] using hev
      have hopp' : opposite ix = ix - 1 := if_neg hev
      have hix2 : 2 * (ix / 2) = ix - 1 := by omega
      have hix1 : 2 * (ix / 2) + 1 = ix := by omega
      rw [if_neg hdir] at hroom ⊢
      have hroom : amt ≤ x (ix / 2) := hroom
      rw [hix1] at hodd ⊢
      rw [hix2] at heven ⊢
      rw [hopp', Function.update_self, Function.update_of_ne (by omega), hself, heven, hodd, addInt_eq, subInt_eq]
      · exact ⟨rfl, by omega⟩
      · unfold InRange
        omega
      · unfold InRange
        omega
  · have hpush : Network.pushArc amt x (arcOf ix) i = x i := Function.update_of_ne hi _ _
    have hne : ∀ jx, jx / 2 ≠ ix / 2 →
        Function.update flow' (opposite ix) (subInt (flow' (opposite ix)) amt) jx = flow jx := by
      intro jx hjx
      have hjo : jx ≠ opposite ix := by
        rintro rfl
        refine hjx ?_
        unfold opposite
        split_ifs
        · omega
        · omega
      rw [Function.update_of_ne hjo]
      exact Function.update_of_ne (fun h => hjx (by rw [h])) _ _
    rw [hpush, hne _ (by omega), hne _ (by omega)]
    exact hflow i

/-- **The flow along the path.** -/
theorem push_finishes (hflow : Carries flow x) {v : Nat} {L : List Nat} (hL : Follows edges s via v L) {amt : Int}
    (hpos : 0 < amt) (hnodup : ((L.map arcOf).map Prod.fst).Nodup) (hroom : ∀ ix ∈ L, Roomy edges x ix)
    (hamt : ∀ ix ∈ L, amt ≤ (network edges).residual x (arcOf ix)) :
    ∃ flow', Finishes (fun fuel => push edges s via amt fuel v flow) flow' ∧
      Carries flow' (Network.pushAll amt x (L.map arcOf)) := by
  induction L generalizing v flow x with
  | nil =>
    have hv : v = s := hL
    exact ⟨flow, (Finishes.const flow).turn fun fuel => by rw [push, if_pos hv], hflow⟩
  | cons ix L ih =>
    obtain ⟨hvs, hvia, hL⟩ := hL
    rw [List.map_cons, List.map_cons, List.nodup_cons] at hnodup
    have hix := hroom ix List.mem_cons_self
    have hother : ∀ jx ∈ L, Network.pushArc amt x (arcOf ix) (jx / 2) = x (jx / 2) := by
      intro jx hjx
      refine Function.update_of_ne (fun heq => hnodup.1 ?_) _ _
      rw [← heq, List.map_map]
      exact List.mem_map_of_mem (f := Prod.fst ∘ arcOf) hjx
    obtain ⟨flow', hfinishes, hcarries⟩ := ih (hflow.push hix hpos (hamt ix List.mem_cons_self)) hL hnodup.2
      (fun jx hjx => by
        obtain ⟨hlt, hcap, h₀, h₁⟩ := hroom jx (List.mem_cons_of_mem _ hjx)
        exact ⟨hlt, hcap, by rw [hother jx hjx]; exact h₀, by rw [hother jx hjx]; exact h₁⟩)
      (fun jx hjx => by
        have hle := hamt jx (List.mem_cons_of_mem _ hjx)
        unfold Network.residual at hle ⊢
        have hsame : Network.pushArc amt x (arcOf ix) (arcOf jx).1 = x (arcOf jx).1 := hother jx hjx
        rw [hsame]
        exact hle)
    refine ⟨flow', hfinishes.turn fun fuel => ?_, hcarries⟩
    rw [push, if_neg hvs]
    dsimp only
    rw [hvia, Int.toNat_natCast, toA_opposite hix.lt]

/-! ## Augmenting -/

/-- What the program is given. -/
structure Problem (edges : List Edge) (n s t : Nat) : Prop where
  source : s < n
  ne : s ≠ t
  ends : ∀ i < edges.length, (edgeAt edges i).eFrom < n ∧ (edgeAt edges i).eTo < n
  costs : (network edges).absCost < maxBound
  caps : ∀ i < edges.length, 0 ≤ (edgeAt edges i).eCap ∧ (edgeAt edges i).eCap ≤ maxBound

/-- **The turns end with an optimal flow**, from any feasible flow with a potential. -/
theorem augment_finishes (h : Problem edges n s t) (hflow : Carries flow x) (hx : (network edges).Feasible s t x)
    {φ : Nat → Int} (hφ : (network edges).Potential x φ) :
    ∃ flow' x', Finishes (fun fuel => augment edges s t fuel flow) flow' ∧ Carries flow' x' ∧
      (network edges).MinCostMaxFlow s t x' := by
  induction hm : (∑ i ∈ Finset.range (network edges).size, (network edges).cap i - (network edges).net x s).toNat
    using Nat.strong_induction_on generalizing flow x φ with
  | _ m ih =>
    obtain ⟨π, hπ, hbounded⟩ := hφ.bounded
    have hres : Residual edges n flow x π :=
      ⟨h.ends, h.costs, fun i hi => (h.caps i hi).2, hflow, hx.nonneg, hx.le_cap, hπ, hbounded⟩
    obtain ⟨st, hspfa, hst⟩ := spfa_finishes hres s
    have hturn : ∀ {flow'}, Finishes (fun fuel =>
        if st.dist t ≠ maxBound then
          (bottleneck edges s flow st.via fuel t maxBound).bind fun amt =>
            (push edges s st.via amt fuel t flow).bind (augment edges s t fuel)
        else some flow) flow' → Finishes (fun fuel => augment edges s t fuel flow) flow' := fun hbody =>
      (hspfa.bind (g := fun st fuel =>
        if st.dist t ≠ maxBound then
          (bottleneck edges s flow st.via fuel t maxBound).bind fun amt =>
            (push edges s st.via amt fuel t flow).bind (augment edges s t fuel)
        else some flow) hbody).turn fun fuel => by rw [augment]
    by_cases ht : st.dist t = maxBound
    · -- no open arc leaves the nodes that are reached
      refine ⟨flow, x, hturn ?_, hflow, ?_⟩
      · exact ⟨0, fun fuel _ => if_neg (not_not.2 ht)⟩
      · exact hx.optimal h.ne hφ (R := fun v => st.dist v < maxBound) hst.source (by rw [ht]; exact lt_irrefl _)
          fun a ha htail => (hst.closed a ha htail).1
    · have htlt : st.dist t < maxBound := lt_of_le_of_ne (hst.le_max t) ht
      obtain ⟨L, hL⟩ := hst.followed t htlt
      obtain ⟨hpath, harcs⟩ := hst.path htlt hL
      have hnodup := hst.path_nodup htlt hL
      have hroomy : ∀ ix ∈ L, Roomy edges x ix := by
        intro ix hix
        have hlt : ix / 2 < edges.length := (harcs ix hix).1.1
        exact ⟨by omega, (h.caps _ hlt).2, hx.nonneg _ hlt, hx.le_cap _ hlt⟩
      have hbottleneck := bottleneck_finishes hflow hL hroomy maxBound
      obtain ⟨hpos, -, hle⟩ := foldl_min_le (fun ix => (network edges).residual x (arcOf ix)) L
        (show (0 : Int) < maxBound by decide) fun ix hix => (harcs ix hix).1.2
      obtain ⟨amt, hamt⟩ : ∃ amt, amt = L.foldl (fun acc ix => min acc ((network edges).residual x (arcOf ix))) maxBound :=
        ⟨_, rfl⟩
      rw [← hamt] at hbottleneck hpos hle
      obtain ⟨flow', hpush, hflow'⟩ := push_finishes hflow hL hpos hnodup hroomy hle
      have hsize : ∀ a ∈ L.map arcOf, a.1 < (network edges).size := by
        intro a ha
        obtain ⟨ix, hix, rfl⟩ := List.mem_map.1 ha
        exact (harcs ix hix).1.1
      have hx' : (network edges).Feasible s t (Network.pushAll amt x (L.map arcOf)) := by
        refine hx.push hpath hnodup hsize (le_of_lt hpos) fun a ha => ?_
        obtain ⟨ix, hix, rfl⟩ := List.mem_map.1 ha
        exact hle ix hix
      -- the distances are a potential of what is reached, and the path is tight
      obtain ⟨ψ, hψ⟩ := hφ.push (R := fun v => st.dist v < maxBound) (δ := st.dist)
        (fun a ha htail => hst.closed a ha htail) hnodup (le_of_lt hpos) (fun a ha => by
          obtain ⟨ix, hix, rfl⟩ := List.mem_map.1 ha
          obtain ⟨hopen, htail, hdist, -⟩ := harcs ix hix
          exact ⟨htail, (hst.closed _ hopen htail).1, hdist⟩)
      have hvalue : (network edges).net (Network.pushAll amt x (L.map arcOf)) s = (network edges).net x s + amt := by
        rw [Network.net_pushAll hpath hsize, if_pos rfl, if_neg (Ne.symm h.ne), sub_zero]
      have hbound := hx'.net_le s
      rw [hvalue] at hbound
      obtain ⟨flow'', x'', hfinishes, hcarries, hoptimal⟩ := ih _ (by omega) hflow' hx' hψ rfl
      refine ⟨flow'', x'', hturn ?_, hcarries, hoptimal⟩
      simp only [ne_eq, ht, not_false_eq_true, if_true]
      exact hbottleneck.bind (g := fun amt fuel => (push edges s st.via amt fuel t flow).bind (augment edges s t fuel))
        (hpush.bind (g := fun flow fuel => augment edges s t fuel flow) hfinishes)

theorem sum_edgeAt (edges : List Edge) (f : Edge → Int) :
    ∑ i ∈ Finset.range edges.length, f (edgeAt edges i) = (edges.map f).sum := by
  induction edges with
  | nil => rfl
  | cons e edges ih =>
    rw [List.length_cons, Finset.sum_range_succ', List.map_cons, List.sum_cons, ← ih, add_comm]
    rfl

/-- **The program ends, with a maximum flow of least cost.** -/
theorem minCostFlow_optimal (hs : s < n) (hst : s ≠ t)
    (hends : ∀ e ∈ edges, e.eFrom < n ∧ e.eTo < n) (hcaps : ∀ e ∈ edges, 0 ≤ e.eCap ∧ e.eCap ≤ maxBound)
    (hcosts : (edges.map fun e => |e.eCost|).sum < maxBound) (hcycle : (network edges).NoNegativeCycle) :
    ∃ flows, Finishes (minCostFlow n s t edges) flows ∧ flows.length = edges.length ∧
      (network edges).MinCostMaxFlow s t fun i => flows.getD i 0 := by
  have hmem : ∀ i < edges.length, edgeAt edges i ∈ edges := by
    intro i hi
    rw [edgeAt, List.getD_eq_getElem _ _ hi]
    exact List.getElem_mem hi
  have habs : (network edges).absCost = (edges.map fun e => |e.eCost|).sum := sum_edgeAt edges fun e => |e.eCost|
  have hproblem : Problem edges n s t :=
    ⟨hs, hst, fun i hi => hends _ (hmem i hi), by rw [habs]; exact hcosts, fun i hi => hcaps _ (hmem i hi)⟩
  have hzero : (network edges).Feasible s t fun _ => 0 := Network.feasible_zero fun i hi => (hproblem.caps i hi).1
  obtain ⟨φ, hφ⟩ := hcycle.exists_potential
  have hcarries : Carries (fun _ => 0) fun _ => 0 := fun i => ⟨rfl, rfl⟩
  obtain ⟨flow, x, hfinishes, hflow, hx⟩ := augment_finishes hproblem hcarries hzero hφ
  by_cases hnone : edges = []
  · subst hnone
    refine ⟨[], ⟨0, fun fuel _ => ?_⟩, rfl, hx.congr fun i hi => absurd hi (Nat.not_lt_zero i)⟩
    rw [minCostFlow, flows, if_neg fun h => lt_irrefl 0 h.2]
    rfl
  · have hm : 0 < 2 * edges.length := Nat.mul_pos (by omega) (List.length_pos_iff.2 hnone)
    refine ⟨((List.range edges.length).map fun i => 2 * i).map flow, ?_, by simp, hx.congr fun i hi => ?_⟩
    · obtain ⟨bound, hbound⟩ := hfinishes
      refine ⟨bound, fun fuel hfuel => ?_⟩
      have haugment : augment edges s t fuel (fun _ => 0) = some flow := hbound fuel hfuel
      rw [minCostFlow, flows, if_pos ⟨Nat.zero_lt_of_lt hs, hm⟩, haugment]
      rfl
    · have hi : i < edges.length := hi
      simp [List.getD_eq_getElem?_getD, hi, (hflow i).1]

/-- Two ways from `0` to `3`, and an edge between them. -/
theorem minCostFlow_diamond :
    ∃ flows, Finishes (minCostFlow 4 0 3 [⟨0, 1, 2, 1⟩, ⟨0, 2, 1, 2⟩, ⟨1, 2, 1, 0⟩, ⟨1, 3, 1, 5⟩, ⟨2, 3, 2, 1⟩]) flows ∧
      flows.length = 5 ∧
      (network [⟨0, 1, 2, 1⟩, ⟨0, 2, 1, 2⟩, ⟨1, 2, 1, 0⟩, ⟨1, 3, 1, 5⟩, ⟨2, 3, 2, 1⟩]).MinCostMaxFlow 0 3
        fun i => flows.getD i 0 :=
  minCostFlow_optimal (by decide) (by decide) (by decide) (by decide) (by decide)
    (Network.noNegativeCycle_of_nonneg (by decide))

/-- A path whose cost is `maxBound` looks like none. -/
theorem minCostFlow_at_maxBound :
    (([⟨0, 1, 1, maxBound⟩] : List Edge).map fun e => |e.eCost|).sum ≤ maxBound ∧
      (network [⟨0, 1, 1, maxBound⟩]).NoNegativeCycle ∧
      ¬∃ flows, Finishes (minCostFlow 2 0 1 [⟨0, 1, 1, maxBound⟩]) flows ∧
        (network [⟨0, 1, 1, maxBound⟩]).MinCostMaxFlow 0 1 fun i => flows.getD i 0 := by
  refine ⟨by decide, Network.noNegativeCycle_of_nonneg (by decide), ?_⟩
  rintro ⟨flows, hflows, hoptimal⟩
  have hzero : Finishes (minCostFlow 2 0 1 [⟨0, 1, 1, maxBound⟩]) [0] := by
    refine ⟨9, fun fuel hfuel => ?_⟩
    obtain ⟨fuel, rfl⟩ := Nat.exists_eq_add_of_le' hfuel
    rfl
  rw [hflows.unique hzero] at hoptimal
  have hone : (network [⟨0, 1, 1, maxBound⟩]).Feasible 0 1 fun _ => 1 := by
    refine ⟨fun _ _ => by decide, by decide, fun v hv hv' => ?_⟩
    rw [Network.net, show (network [⟨0, 1, 1, maxBound⟩]).size = 1 from rfl, Finset.sum_range_one]
    simp [network, edgeAt, Ne.symm hv, Ne.symm hv']
  have hle := hoptimal.max_value _ hone
  revert hle
  decide

end Wireform.Kafka.Streams.MinCostFlow
