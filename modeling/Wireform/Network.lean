/-
  Flows in networks with capacities and costs.

  * `Network`, `Feasible`, `MinCostMaxFlow`: edges by number, flows on them, and the flows
    of greatest value and then least cost;
  * `Arc`, `Open`: the residual graph of a flow: an edge along itself while it is not full,
    and backwards while it is not empty;
  * `Potential`: a number for each node, such that no open arc is cheaper than it goes down;
  * `Feasible.optimal`: a potential and a cut that no open arc leaves make a flow optimal;
  * `NoNegativeCycle.exists_potential`, `Potential.bounded`: where potentials come from,
    and how small they can be;
  * `pushAll`: flow along a path, and what stays of a potential (`Potential.push`).
-/
import Mathlib

namespace Wireform

structure Network where
  size : Nat
  src : Nat → Nat
  dst : Nat → Nat
  cap : Nat → Int
  cost : Nat → Int

namespace Network

variable (N : Network)

/-- What leaves a node, less what enters it. -/
def net (x : Nat → Int) (v : Nat) : Int :=
  ∑ i ∈ Finset.range N.size, ((if N.src i = v then x i else 0) - if N.dst i = v then x i else 0)

def totalCost (x : Nat → Int) : Int := ∑ i ∈ Finset.range N.size, N.cost i * x i

/-- The costs without their signs, summed up. -/
def absCost : Int := ∑ i ∈ Finset.range N.size, |N.cost i|

structure Feasible (s t : Nat) (x : Nat → Int) : Prop where
  nonneg : ∀ i < N.size, 0 ≤ x i
  le_cap : ∀ i < N.size, x i ≤ N.cap i
  conserved : ∀ v, v ≠ s → v ≠ t → N.net x v = 0

/-- A flow of greatest value, and of least cost among these. -/
structure MinCostMaxFlow (s t : Nat) (x : Nat → Int) : Prop extends N.Feasible s t x where
  max_value : ∀ y, N.Feasible s t y → N.net y s ≤ N.net x s
  min_cost : ∀ y, N.Feasible s t y → N.net y s = N.net x s → N.totalCost x ≤ N.totalCost y

/-! ## The residual graph -/

/-- An edge, and whether it is followed along itself. -/
abbrev Arc := Nat × Bool

def tail (a : Arc) : Nat := if a.2 then N.src a.1 else N.dst a.1

def head (a : Arc) : Nat := if a.2 then N.dst a.1 else N.src a.1

def arcCost (a : Arc) : Int := if a.2 then N.cost a.1 else -N.cost a.1

def flip (a : Arc) : Arc := (a.1, !a.2)

def residual (x : Nat → Int) (a : Arc) : Int := if a.2 then N.cap a.1 - x a.1 else x a.1

def Open (x : Nat → Int) (a : Arc) : Prop := a.1 < N.size ∧ 0 < N.residual x a

def Potential (x φ : Nat → Int) : Prop := ∀ a, N.Open x a → φ (N.head a) ≤ φ (N.tail a) + N.arcCost a

section
variable {N} {s t : Nat} {x y φ : Nat → Int} {a : Arc}

@[simp] theorem tail_flip (a : Arc) : N.tail (flip a) = N.head a := by
  obtain ⟨i, b⟩ := a
  cases b with
  | true => rfl
  | false => rfl

@[simp] theorem head_flip (a : Arc) : N.head (flip a) = N.tail a := by
  obtain ⟨i, b⟩ := a
  cases b with
  | true => rfl
  | false => rfl

@[simp] theorem arcCost_flip (a : Arc) : N.arcCost (flip a) = -N.arcCost a := by
  obtain ⟨i, b⟩ := a
  cases b with
  | true => rfl
  | false => exact (Int.neg_neg _).symm

theorem abs_arcCost (a : Arc) : |N.arcCost a| = |N.cost a.1| := by
  unfold arcCost
  split_ifs
  · rfl
  · exact abs_neg _

theorem abs_arcCost_le (h : a.1 < N.size) : |N.arcCost a| ≤ N.absCost := by
  rw [abs_arcCost]
  exact Finset.single_le_sum (fun i _ => abs_nonneg (N.cost i)) (Finset.mem_range.2 h)

/-- The ends of an edge are the ends of its arcs. -/
theorem ends_iff (D : Nat → Prop) (a : Arc) : D (N.src a.1) ∧ D (N.dst a.1) ↔ D (N.tail a) ∧ D (N.head a) := by
  obtain ⟨i, b⟩ := a
  cases b with
  | true => exact Iff.rfl
  | false => exact and_comm

/-! ## Costs between some of the nodes -/

variable (N) in
/-- The costs of the edges between nodes of `D`, without their signs. -/
def innerCost (D : Nat → Prop) [DecidablePred D] : Int :=
  ∑ i ∈ Finset.range N.size, if D (N.src i) ∧ D (N.dst i) then |N.cost i| else 0

section
variable {D D' : Nat → Prop} [DecidablePred D] [DecidablePred D']

theorem innerCost_nonneg : 0 ≤ N.innerCost D := Finset.sum_nonneg fun i _ => by
  split_ifs
  · exact abs_nonneg _
  · exact le_refl 0

theorem innerCost_le : N.innerCost D ≤ N.absCost := Finset.sum_le_sum fun i _ => by
  split_ifs
  · exact le_refl _
  · exact abs_nonneg _

theorem innerCost_mono (h : ∀ v, D v → D' v) : N.innerCost D ≤ N.innerCost D' := Finset.sum_le_sum fun i _ => by
  by_cases hD : D (N.src i) ∧ D (N.dst i)
  · rw [if_pos hD, if_pos ⟨h _ hD.1, h _ hD.2⟩]
  · rw [if_neg hD]
    split_ifs
    · exact abs_nonneg _
    · exact le_refl 0

theorem abs_arcCost_le_innerCost (ha : a.1 < N.size) (hD : D (N.tail a) ∧ D (N.head a)) :
    |N.arcCost a| ≤ N.innerCost D := by
  have hterm : (if D (N.src a.1) ∧ D (N.dst a.1) then |N.cost a.1| else 0) = |N.arcCost a| := by
    rw [if_pos ((ends_iff D a).2 hD), abs_arcCost]
  rw [← hterm]
  refine Finset.single_le_sum (f := fun i => if D (N.src i) ∧ D (N.dst i) then |N.cost i| else 0) (fun i _ => ?_)
    (Finset.mem_range.2 ha)
  split_ifs
  · exact abs_nonneg _
  · exact le_refl 0

/-- Edges that were not yet between the nodes add their costs. -/
theorem innerCost_add (h : ∀ v, D v → D' v) {E : Finset Nat}
    (hE : ∀ i ∈ E, i < N.size ∧ ¬(D (N.src i) ∧ D (N.dst i)) ∧ D' (N.src i) ∧ D' (N.dst i)) :
    N.innerCost D + ∑ i ∈ E, |N.cost i| ≤ N.innerCost D' := by
  have hrange : E ⊆ Finset.range N.size := fun i hi => Finset.mem_range.2 (hE i hi).1
  have hsum : ∑ i ∈ E, |N.cost i| = ∑ i ∈ Finset.range N.size, if i ∈ E then |N.cost i| else 0 := by
    rw [Finset.sum_ite_mem, Finset.inter_eq_right.2 hrange]
  rw [hsum, innerCost, innerCost, ← Finset.sum_add_distrib]
  refine Finset.sum_le_sum fun i _ => ?_
  by_cases hi : i ∈ E
  · obtain ⟨-, hnew, hin⟩ := hE i hi
    rw [if_neg hnew, if_pos hi, if_pos hin, zero_add]
  · rw [if_neg hi, add_zero]
    by_cases hD : D (N.src i) ∧ D (N.dst i)
    · rw [if_pos hD, if_pos ⟨h _ hD.1, h _ hD.2⟩]
    · rw [if_neg hD]
      split_ifs
      · exact abs_nonneg _
      · exact le_refl 0

/-- Two arcs at a node that is new. -/
theorem innerCost_add_arcs (h : ∀ v, D v → D' v) {a b : Arc} (hab : a.1 ≠ b.1) (ha : a.1 < N.size) (hb : b.1 < N.size)
    (hnew : ¬D (N.head a)) (hnew' : ¬D (N.tail b)) (hin : D' (N.tail a) ∧ D' (N.head a))
    (hin' : D' (N.tail b) ∧ D' (N.head b)) :
    N.innerCost D + (|N.arcCost a| + |N.arcCost b|) ≤ N.innerCost D' := by
  rw [abs_arcCost, abs_arcCost, ← Finset.sum_pair (f := fun i => |N.cost i|) hab]
  refine innerCost_add h fun i hi => ?_
  rcases Finset.mem_insert.1 hi with rfl | hi
  · exact ⟨ha, fun hold => hnew ((ends_iff D a).1 hold).2, (ends_iff D' a).2 hin⟩
  · rw [Finset.mem_singleton.1 hi]
    exact ⟨hb, fun hold => hnew' ((ends_iff D b).1 hold).1, (ends_iff D' b).2 hin'⟩

end

/-! ## Optimality -/

theorem net_sub (x y : Nat → Int) (v : Nat) : N.net (fun i => y i - x i) v = N.net y v - N.net x v := by
  rw [net, net, net, ← Finset.sum_sub_distrib]
  refine Finset.sum_congr rfl fun i _ => ?_
  split_ifs
  · ring
  · ring
  · ring
  · ring

/-- The sum over the edges as a sum over the nodes. -/
theorem sum_edges_eq (ψ x : Nat → Int) {V : Finset Nat} (hV : ∀ i < N.size, N.src i ∈ V ∧ N.dst i ∈ V) :
    ∑ i ∈ Finset.range N.size, (ψ (N.src i) - ψ (N.dst i)) * x i = ∑ v ∈ V, ψ v * N.net x v := by
  have hnode : ∀ v, ψ v * N.net x v = ∑ i ∈ Finset.range N.size,
      ((if N.src i = v then ψ v * x i else 0) - if N.dst i = v then ψ v * x i else 0) := by
    intro v
    rw [net, Finset.mul_sum]
    refine Finset.sum_congr rfl fun i _ => ?_
    rw [mul_sub, mul_ite, mul_ite, mul_zero]
  rw [Finset.sum_congr rfl fun v _ => hnode v, Finset.sum_comm]
  refine Finset.sum_congr rfl fun i hi => ?_
  obtain ⟨hsrc, hdst⟩ := hV i (Finset.mem_range.1 hi)
  rw [Finset.sum_sub_distrib, Finset.sum_ite_eq, Finset.sum_ite_eq, if_pos hsrc, if_pos hdst, sub_mul]

/-- Of a potential only its fall from `s` to `t` counts. -/
theorem sum_edges_fall (hst : s ≠ t) (hx : ∀ v, v ≠ s → v ≠ t → N.net x v = 0) (ψ : Nat → Int) :
    ∑ i ∈ Finset.range N.size, (ψ (N.src i) - ψ (N.dst i)) * x i = (ψ s - ψ t) * N.net x s := by
  obtain ⟨V, hV⟩ : ∃ V, V = insert s (insert t ((Finset.range N.size).image N.src ∪ (Finset.range N.size).image N.dst)) :=
    ⟨_, rfl⟩
  have hends : ∀ i < N.size, N.src i ∈ V ∧ N.dst i ∈ V := by
    intro i hi
    have hmem := Finset.mem_range.2 hi
    rw [hV]
    exact ⟨Finset.mem_insert_of_mem (Finset.mem_insert_of_mem (Finset.mem_union_left _ (Finset.mem_image_of_mem _ hmem))),
      Finset.mem_insert_of_mem (Finset.mem_insert_of_mem (Finset.mem_union_right _ (Finset.mem_image_of_mem _ hmem)))⟩
  have htwo : ∀ ψ : Nat → Int, ∑ v ∈ V, ψ v * N.net x v = ψ s * N.net x s + ψ t * N.net x t := by
    intro ψ
    have hpair : ({s, t} : Finset Nat) ⊆ V := by
      intro v hv
      rcases Finset.mem_insert.1 hv with rfl | hv
      · rw [hV]
        exact Finset.mem_insert_self _ _
      · rw [Finset.mem_singleton.1 hv, hV]
        exact Finset.mem_insert_of_mem (Finset.mem_insert_self _ _)
    rw [← Finset.sum_subset hpair, Finset.sum_pair hst]
    intro v _ hv
    rw [Finset.mem_insert, Finset.mem_singleton, not_or] at hv
    rw [hx v hv.1 hv.2, mul_zero]
  have hone := sum_edges_eq (N := N) (fun _ => 1) x hends
  rw [htwo] at hone
  simp only [sub_self, zero_mul, Finset.sum_const_zero, one_mul] at hone
  rw [sum_edges_eq ψ x hends, htwo, sub_mul]
  have hsink : N.net x t = -N.net x s := by omega
  rw [hsink]
  ring

/-- Only what is on the edges counts. -/
theorem net_congr (h : ∀ i < N.size, x i = y i) (v : Nat) : N.net x v = N.net y v :=
  Finset.sum_congr rfl fun i hi => by rw [h i (Finset.mem_range.1 hi)]

theorem Feasible.congr (hx : N.Feasible s t x) (h : ∀ i < N.size, x i = y i) : N.Feasible s t y where
  nonneg i hi := h i hi ▸ hx.nonneg i hi
  le_cap i hi := h i hi ▸ hx.le_cap i hi
  conserved v hvs hvt := (net_congr h v) ▸ hx.conserved v hvs hvt

theorem MinCostMaxFlow.congr (hx : N.MinCostMaxFlow s t x) (h : ∀ i < N.size, x i = y i) :
    N.MinCostMaxFlow s t y where
  toFeasible := hx.toFeasible.congr h
  max_value z hz := net_congr h s ▸ hx.max_value z hz
  min_cost z hz hvalue := by
    have hcost : N.totalCost y = N.totalCost x :=
      Finset.sum_congr rfl fun i hi => by rw [h i (Finset.mem_range.1 hi)]
    rw [hcost]
    exact hx.min_cost z hz (hvalue.trans (net_congr h s).symm)

/-- **A potential and a cut** make a flow optimal. -/
theorem Feasible.optimal (hx : N.Feasible s t x) (hst : s ≠ t) (hφ : N.Potential x φ) {R : Nat → Prop} (hs : R s)
    (ht : ¬R t) (hR : ∀ a, N.Open x a → R (N.tail a) → R (N.head a)) : N.MinCostMaxFlow s t x where
  toFeasible := hx
  max_value y hy := by
    classical
    have hnet : ∀ v, v ≠ s → v ≠ t → N.net (fun i => y i - x i) v = 0 := fun v hvs hvt => by
      rw [net_sub, hy.conserved v hvs hvt, hx.conserved v hvs hvt, sub_zero]
    have hfall := sum_edges_fall hst hnet fun v => if R v then 1 else 0
    simp only [if_pos hs, if_neg ht, sub_zero, one_mul, net_sub] at hfall
    -- an edge that leaves the cut is full, and one that enters it is empty
    have hle : ∑ i ∈ Finset.range N.size,
        ((if R (N.src i) then (1 : Int) else 0) - if R (N.dst i) then 1 else 0) * (y i - x i) ≤ 0 := by
      refine Finset.sum_nonpos fun i hi => ?_
      have hi := Finset.mem_range.1 hi
      by_cases hsrc : R (N.src i)
      · by_cases hdst : R (N.dst i)
        · rw [if_pos hsrc, if_pos hdst, sub_self, zero_mul]
        · have hfull : ¬0 < N.cap i - x i := fun hlt => hdst (hR (i, true) ⟨hi, hlt⟩ hsrc)
          rw [if_pos hsrc, if_neg hdst, sub_zero, one_mul]
          linarith [hy.le_cap i hi]
      · by_cases hdst : R (N.dst i)
        · have hempty : ¬0 < x i := fun hlt => hsrc (hR (i, false) ⟨hi, hlt⟩ hdst)
          rw [if_neg hsrc, if_pos hdst, zero_sub, neg_one_mul]
          linarith [hy.nonneg i hi]
        · rw [if_neg hsrc, if_neg hdst, sub_self, zero_mul]
    rw [hfall] at hle
    exact sub_nonpos.1 hle
  min_cost y hy hvalue := by
    have hnet : ∀ v, v ≠ s → v ≠ t → N.net (fun i => y i - x i) v = 0 := fun v hvs hvt => by
      rw [net_sub, hy.conserved v hvs hvt, hx.conserved v hvs hvt, sub_zero]
    have hfall := sum_edges_fall hst hnet φ
    rw [net_sub, hvalue, sub_self, mul_zero] at hfall
    -- the cost of each change, less what the potential pays for
    have hreduced : 0 ≤ ∑ i ∈ Finset.range N.size, (N.cost i + (φ (N.src i) - φ (N.dst i))) * (y i - x i) := by
      refine Finset.sum_nonneg fun i hi => ?_
      have hi := Finset.mem_range.1 hi
      rcases lt_trichotomy (y i) (x i) with hlt | heq | hgt
      · have hback : φ (N.src i) ≤ φ (N.dst i) + -N.cost i :=
          hφ (i, false) ⟨hi, lt_of_le_of_lt (hy.nonneg i hi) hlt⟩
        exact mul_nonneg_of_nonpos_of_nonpos (by linarith) (by linarith)
      · rw [heq, sub_self, mul_zero]
      · have hforth : φ (N.dst i) ≤ φ (N.src i) + N.cost i :=
          hφ (i, true) ⟨hi, sub_pos.2 (lt_of_lt_of_le hgt (hy.le_cap i hi))⟩
        exact mul_nonneg (by linarith) (by linarith)
    have hsplit : ∑ i ∈ Finset.range N.size, (N.cost i + (φ (N.src i) - φ (N.dst i))) * (y i - x i) =
        N.totalCost y - N.totalCost x := by
      rw [totalCost, totalCost, ← Finset.sum_sub_distrib, ← sub_zero (Finset.sum _ fun i => _ * (y i - x i)), ← hfall,
        ← Finset.sum_sub_distrib]
      refine Finset.sum_congr rfl fun i _ => ?_
      ring
    rw [hsplit] at hreduced
    exact sub_nonneg.1 hreduced

/-! ## Potentials of bounded size -/

/-- **A potential can be taken small**: no lower than the costs reach. -/
theorem Potential.bounded (h : N.Potential x φ) : ∃ π, N.Potential x π ∧ ∀ v, -N.absCost ≤ π v ∧ π v ≤ 0 := by
  -- of the levels of `φ` those that an arc of negative cost has to pass
  obtain ⟨low, hlow⟩ : ∃ low : Nat → Int, ∀ a, N.arcCost a < 0 → low a.1 = φ (N.head a) := by
    refine ⟨fun i => if 0 < N.cost i then φ (N.src i) else φ (N.dst i), fun a ha => ?_⟩
    obtain ⟨i, b⟩ := a
    cases b with
    | true => exact if_neg (not_lt.2 (le_of_lt ha))
    | false => exact if_pos (neg_lt_zero.1 ha)
  obtain ⟨T, hT⟩ : ∃ T, T = (Finset.range N.size).biUnion fun i => Finset.Ico (low i) (low i + |N.cost i|) := ⟨_, rfl⟩
  have hcard : (T.card : Int) ≤ N.absCost := by
    have hsum : T.card ≤ ∑ i ∈ Finset.range N.size, (Finset.Ico (low i) (low i + |N.cost i|)).card := by
      rw [hT]
      exact Finset.card_biUnion_le
    refine le_trans (Int.ofNat_le.2 hsum) ?_
    rw [absCost, Nat.cast_sum]
    refine Finset.sum_le_sum fun i _ => ?_
    rw [Int.card_Ico, Int.toNat_of_nonneg (by linarith [abs_nonneg (N.cost i)]), add_sub_cancel_left]
  refine ⟨fun v => ((T.filter (· < φ v)).card : Int) - N.absCost, fun a ha => ?_, fun v => ⟨?_, ?_⟩⟩
  · have harc := h a ha
    rcases lt_or_ge (N.arcCost a) 0 with hneg | hpos
    · -- what the arc has to pass lies between the levels of its ends
      have hpass : Finset.Ico (φ (N.head a)) (φ (N.head a) + -N.arcCost a) ⊆ T := by
        intro z hz
        rw [hT, Finset.mem_biUnion]
        refine ⟨a.1, Finset.mem_range.2 ha.1, ?_⟩
        rw [hlow a hneg, ← abs_arcCost, abs_of_neg hneg]
        exact hz
      have hunion : T.filter (· < φ (N.head a)) ∪ Finset.Ico (φ (N.head a)) (φ (N.head a) + -N.arcCost a) ⊆
          T.filter (· < φ (N.tail a)) := by
        intro z hz
        rcases Finset.mem_union.1 hz with hz | hz
        · obtain ⟨hz, hlt⟩ := Finset.mem_filter.1 hz
          exact Finset.mem_filter.2 ⟨hz, by omega⟩
        · have hico := Finset.mem_Ico.1 hz
          exact Finset.mem_filter.2 ⟨hpass hz, by omega⟩
      have hdisj : Disjoint (T.filter (· < φ (N.head a)))
          (Finset.Ico (φ (N.head a)) (φ (N.head a) + -N.arcCost a)) := by
        refine Finset.disjoint_left.2 fun z hz hz' => ?_
        have hlt := (Finset.mem_filter.1 hz).2
        have hge := (Finset.mem_Ico.1 hz').1
        omega
      have hle := Finset.card_le_card hunion
      rw [Finset.card_union_of_disjoint hdisj, Int.card_Ico] at hle
      dsimp only
      omega
    · have hsub : T.filter (· < φ (N.head a)) ⊆
          T.filter (· < φ (N.tail a)) ∪ Finset.Ico (φ (N.tail a)) (φ (N.head a)) := by
        intro z hz
        obtain ⟨hz, hlt⟩ := Finset.mem_filter.1 hz
        rcases lt_or_ge z (φ (N.tail a)) with hz' | hz'
        · exact Finset.mem_union_left _ (Finset.mem_filter.2 ⟨hz, hz'⟩)
        · exact Finset.mem_union_right _ (Finset.mem_Ico.2 ⟨hz', hlt⟩)
      have hle := le_trans (Finset.card_le_card hsub) (Finset.card_union_le _ _)
      rw [Int.card_Ico] at hle
      dsimp only
      omega
  · dsimp only
    omega
  · have hle := Finset.card_filter_le T (· < φ v)
    dsimp only
    omega

/-! ## Walks along edges -/

variable (N) in
/-- A walk along edges that have a capacity. -/
def Walk (u : Nat) : List Nat → Nat → Prop
  | [], v => u = v
  | i :: L, v => i < N.size ∧ 0 < N.cap i ∧ N.src i = u ∧ Walk (N.dst i) L v

variable (N) in
def pathCost (L : List Nat) : Int := (L.map N.cost).sum

variable (N) in
def NoNegativeCycle : Prop := ∀ v L, L ≠ [] → N.Walk v L v → (L.map N.src).Nodup → 0 ≤ N.pathCost L

variable {L : List Nat} {u v : Nat}

theorem walk_append {L L' : List Nat} :
    N.Walk u (L ++ L') v ↔ ∃ w, N.Walk u L w ∧ N.Walk w L' v := by
  induction L generalizing u with
  | nil =>
    constructor
    · exact fun h => ⟨u, rfl, h⟩
    · rintro ⟨w, rfl, h⟩
      exact h
  | cons i L ih =>
    constructor
    · rintro ⟨hi, hcap, hsrc, h⟩
      obtain ⟨w, hL, hL'⟩ := ih.1 h
      exact ⟨w, ⟨hi, hcap, hsrc, hL⟩, hL'⟩
    · rintro ⟨w, ⟨hi, hcap, hsrc, hL⟩, hL'⟩
      exact ⟨hi, hcap, hsrc, ih.2 ⟨w, hL, hL'⟩⟩

theorem pathCost_append (L L' : List Nat) : N.pathCost (L ++ L') = N.pathCost L + N.pathCost L' := by
  rw [pathCost, List.map_append, List.sum_append]
  rfl

theorem Walk.lt (h : N.Walk u L v) {i : Nat} (hi : i ∈ L) : i < N.size := by
  obtain ⟨A, B, rfl⟩ := List.append_of_mem hi
  obtain ⟨w, -, hB⟩ := walk_append.1 h
  exact hB.1

theorem noNegativeCycle_of_nonneg (h : ∀ i < N.size, 0 ≤ N.cost i) : N.NoNegativeCycle := fun v L _ hL _ => by
  refine List.sum_nonneg fun c hc => ?_
  obtain ⟨i, hi, rfl⟩ := List.mem_map.1 hc
  exact h i (hL.lt hi)

/-- A walk that comes back to a node has a closed part, and goes on without it. -/
theorem Walk.split (h : N.Walk u L v) (hdup : ¬(L.map N.src).Nodup) :
    ∃ A B C w, L = A ++ (B ++ C) ∧ B ≠ [] ∧ C ≠ [] ∧ N.Walk w B w ∧ N.Walk u (A ++ C) v := by
  rw [List.nodup_iff_sublist] at hdup
  push Not at hdup
  obtain ⟨w, hw⟩ := hdup
  obtain ⟨r₁, r₂, hr, hw₁, hw₂⟩ := List.cons_sublist_iff.1 hw
  obtain ⟨L₁, L₂, rfl, rfl, rfl⟩ := List.map_eq_append_iff.1 hr
  obtain ⟨i, hi, hiw⟩ := List.mem_map.1 hw₁
  obtain ⟨j, hj, hjw⟩ := List.mem_map.1 (List.singleton_sublist.1 hw₂)
  obtain ⟨A, B, rfl⟩ := List.append_of_mem hi
  obtain ⟨B', C, rfl⟩ := List.append_of_mem hj
  refine ⟨A, i :: B ++ B', j :: C, w, by simp, List.cons_ne_nil _ _, List.cons_ne_nil _ _, ?_⟩
  have hre : A ++ i :: B ++ (B' ++ j :: C) = A ++ ((i :: B ++ B') ++ j :: C) := by simp
  rw [hre] at h
  obtain ⟨a, hA, h⟩ := walk_append.1 h
  obtain ⟨c, hB, hC⟩ := walk_append.1 h
  have ha : a = w := by rw [← hiw, hB.2.2.1]
  have hc : c = w := by rw [← hjw, hC.2.2.1]
  subst ha hc
  exact ⟨hB, walk_append.2 ⟨c, hA, hC⟩⟩

theorem Walk.cost_of_nodup (h : N.Walk u L v) (hnodup : (L.map N.src).Nodup) :
    -N.absCost ≤ N.pathCost L := by
  have hL : L.Nodup := hnodup.of_map _
  have hrange : L.toFinset ⊆ Finset.range N.size := fun i hi => Finset.mem_range.2 (h.lt (List.mem_toFinset.1 hi))
  calc -N.absCost ≤ -∑ i ∈ L.toFinset, |N.cost i| :=
        neg_le_neg (Finset.sum_le_sum_of_subset_of_nonneg hrange fun i _ _ => abs_nonneg _)
    _ = ∑ i ∈ L.toFinset, -|N.cost i| := (Finset.sum_neg_distrib _).symm
    _ ≤ ∑ i ∈ L.toFinset, N.cost i := Finset.sum_le_sum fun i _ => neg_abs_le _
    _ = N.pathCost L := List.sum_toFinset _ hL

theorem NoNegativeCycle.closed (h : N.NoNegativeCycle) {v : Nat} (hL : N.Walk v L v) :
    0 ≤ N.pathCost L := by
  induction hn : L.length using Nat.strong_induction_on generalizing v L with
  | _ n ih =>
    by_cases hnil : L = []
    · rw [hnil]
      rfl
    · by_cases hnodup : (L.map N.src).Nodup
      · exact h v L hnil hL hnodup
      · obtain ⟨A, B, C, w, rfl, hB, hC, hwB, hrest⟩ := hL.split hnodup
        have hlB := List.length_pos_iff.2 hB
        have hlC := List.length_pos_iff.2 hC
        simp only [List.length_append] at hn
        have h₁ := ih B.length (by omega) hwB rfl
        have h₂ := ih (A ++ C).length (by rw [List.length_append]; omega) hrest rfl
        rw [pathCost_append] at h₂
        rw [pathCost_append, pathCost_append]
        omega

/-- No walk costs less than all costs together. -/
theorem NoNegativeCycle.walk (h : N.NoNegativeCycle) {u v : Nat} {L : List Nat} (hL : N.Walk u L v) :
    -N.absCost ≤ N.pathCost L := by
  induction hn : L.length using Nat.strong_induction_on generalizing L with
  | _ n ih =>
    by_cases hnodup : (L.map N.src).Nodup
    · exact hL.cost_of_nodup hnodup
    · obtain ⟨A, B, C, w, rfl, hB, hC, hwB, hrest⟩ := hL.split hnodup
      have hlB := List.length_pos_iff.2 hB
      simp only [List.length_append] at hn
      have h₁ := h.closed hwB
      have h₂ := ih (A ++ C).length (by rw [List.length_append]; omega) hrest rfl
      rw [pathCost_append] at h₂
      rw [pathCost_append, pathCost_append]
      omega

/-- **Without a cycle of negative cost** the empty flow has a potential: the cost of the
    cheapest walk to a node. -/
theorem NoNegativeCycle.exists_potential (h : N.NoNegativeCycle) : ∃ φ, N.Potential (fun _ => 0) φ := by
  obtain ⟨S, hS⟩ : ∃ S : Nat → Set Int, ∀ v c, c ∈ S v ↔ ∃ u L, N.Walk u L v ∧ N.pathCost L = c :=
    ⟨fun v => {c | ∃ u L, N.Walk u L v ∧ N.pathCost L = c}, fun _ _ => Iff.rfl⟩
  have hbelow : ∀ v, BddBelow (S v) := by
    intro v
    refine ⟨-N.absCost, fun c hc => ?_⟩
    obtain ⟨u, L, hL, rfl⟩ := (hS v c).1 hc
    exact h.walk hL
  have hne : ∀ v, (S v).Nonempty := fun v => ⟨0, (hS v 0).2 ⟨v, [], rfl, rfl⟩⟩
  refine ⟨fun v => sInf (S v), fun a ha => ?_⟩
  obtain ⟨i, b⟩ := a
  cases b with
  | false => exact absurd ha.2 (lt_irrefl 0)
  | true =>
    have hcap : 0 < N.cap i := by simpa [residual] using ha.2
    obtain ⟨u, L, hL, hcost⟩ := (hS _ _).1 (Int.csInf_mem (hne (N.src i)) (hbelow (N.src i)))
    refine csInf_le (hbelow _) ((hS _ _).2 ⟨u, L ++ [i], walk_append.2 ⟨N.src i, hL, ha.1, hcap, rfl, rfl⟩, ?_⟩)
    rw [pathCost_append, hcost]
    simp [pathCost, arcCost, tail]

/-! ## Flow along a path -/

variable (N) in
/-- A path to `v`, followed back to `s`. -/
def BackPath (s : Nat) : Nat → List Arc → Prop
  | v, [] => v = s
  | v, a :: L => N.head a = v ∧ BackPath s (N.tail a) L

def pushArc (d : Int) (x : Nat → Int) (a : Arc) : Nat → Int :=
  Function.update x a.1 (if a.2 then x a.1 + d else x a.1 - d)

def pushAll (d : Int) (x : Nat → Int) (L : List Arc) : Nat → Int := L.foldl (pushArc d) x

theorem net_pushArc (ha : a.1 < N.size) (d : Int) (x : Nat → Int) (v : Nat) :
    N.net (pushArc d x a) v = N.net x v + ((if N.tail a = v then d else 0) - if N.head a = v then d else 0) := by
  obtain ⟨i, b⟩ := a
  have hi : i ∈ Finset.range N.size := Finset.mem_range.2 ha
  have hrest : ∀ j ∈ (Finset.range N.size).erase i, pushArc d x (i, b) j = x j := fun j hj =>
    Function.update_of_ne (Finset.ne_of_mem_erase hj) _ _
  rw [net, net, ← Finset.add_sum_erase _ _ hi, ← Finset.add_sum_erase _ _ hi,
    Finset.sum_congr rfl fun j hj => by rw [hrest j hj]]
  have hself : pushArc d x (i, b) i = if b then x i + d else x i - d := Function.update_self _ _ _
  rw [hself]
  cases b with
  | true =>
    simp only [tail, head, if_true]
    split_ifs
    · ring
    · ring
    · ring
    · ring
  | false =>
    simp only [tail, head, Bool.false_eq_true, if_false]
    split_ifs
    · ring
    · ring
    · ring
    · ring

variable {L : List Arc}

/-- **Flow along a path** changes what leaves its two ends. -/
theorem net_pushAll {v : Nat} (h : N.BackPath s v L) (hL : ∀ a ∈ L, a.1 < N.size) (d : Int)
    (x : Nat → Int) (w : Nat) :
    N.net (pushAll d x L) w = N.net x w + ((if s = w then d else 0) - if v = w then d else 0) := by
  induction L generalizing v x with
  | nil =>
    have hv : v = s := h
    rw [hv, sub_self, add_zero]
    rfl
  | cons a L ih =>
    obtain ⟨rfl, h⟩ := h
    show N.net (pushAll d (pushArc d x a) L) w = _
    rw [ih h (fun b hb => hL b (List.mem_cons_of_mem _ hb)), net_pushArc (hL a List.mem_cons_self)]
    ring

theorem pushAll_of_not_mem {i : Nat} (h : i ∉ L.map Prod.fst) (d : Int) (x : Nat → Int) :
    pushAll d x L i = x i := by
  induction L generalizing x with
  | nil => rfl
  | cons a L ih =>
    rw [List.map_cons, List.mem_cons, not_or] at h
    show pushAll d (pushArc d x a) L i = _
    rw [ih h.2]
    exact Function.update_of_ne h.1 _ _

theorem pushAll_of_mem (hL : (L.map Prod.fst).Nodup) (h : a ∈ L) (d : Int) (x : Nat → Int) :
    pushAll d x L a.1 = if a.2 then x a.1 + d else x a.1 - d := by
  induction L generalizing x with
  | nil => cases h
  | cons b L ih =>
    rw [List.map_cons, List.nodup_cons] at hL
    show pushAll d (pushArc d x b) L a.1 = _
    rcases List.mem_cons.1 h with rfl | h
    · rw [pushAll_of_not_mem hL.1]
      exact Function.update_self _ _ _
    · have hne : a.1 ≠ b.1 := fun heq => hL.1 (heq ▸ List.mem_map_of_mem h)
      have hsame : pushArc d x b a.1 = x a.1 := Function.update_of_ne hne _ _
      rw [ih hL.2 h, hsame]

/-- What is left on an arc of the path. -/
theorem residual_pushAll (hL : (L.map Prod.fst).Nodup) (h : a ∈ L) (d : Int) (x : Nat → Int) :
    N.residual (pushAll d x L) a = N.residual x a - d := by
  unfold residual
  rw [pushAll_of_mem hL h]
  split_ifs
  · ring
  · rfl

/-- **Flow along a path** with room for it keeps a flow feasible. -/
theorem Feasible.push (hx : N.Feasible s t x) (hpath : N.BackPath s t L)
    (hL : (L.map Prod.fst).Nodup) (hsize : ∀ a ∈ L, a.1 < N.size) {d : Int} (hd : 0 ≤ d)
    (hroom : ∀ a ∈ L, d ≤ N.residual x a) : N.Feasible s t (pushAll d x L) := by
  have hedge : ∀ i < N.size, 0 ≤ pushAll d x L i ∧ pushAll d x L i ≤ N.cap i := by
    intro i hi
    have h₀ := hx.nonneg i hi
    have h₁ := hx.le_cap i hi
    by_cases hmem : i ∈ L.map Prod.fst
    · obtain ⟨⟨i, b⟩, ha, rfl⟩ := List.mem_map.1 hmem
      have hroom := hroom _ ha
      have hpush := pushAll_of_mem hL ha d x
      dsimp only at hpush h₀ h₁ ⊢
      cases b with
      | true =>
        simp only [residual, if_true] at hroom hpush
        omega
      | false =>
        simp only [residual, Bool.false_eq_true, if_false] at hroom hpush
        omega
    · rw [pushAll_of_not_mem hmem]
      exact ⟨h₀, h₁⟩
  refine ⟨fun i hi => (hedge i hi).1, fun i hi => (hedge i hi).2, fun v hvs hvt => ?_⟩
  rw [net_pushAll hpath hsize, if_neg (Ne.symm hvs), if_neg (Ne.symm hvt), hx.conserved v hvs hvt]
  rfl

/-- Only the reverses of the arcs of the path open. -/
theorem open_pushAll (hL : (L.map Prod.fst).Nodup) {d : Int} (hd : 0 ≤ d)
    (h : N.Open (pushAll d x L) a) : N.Open x a ∨ flip a ∈ L := by
  obtain ⟨i, b⟩ := a
  by_cases hmem : i ∈ L.map Prod.fst
  · obtain ⟨⟨i, b'⟩, ha, rfl⟩ := List.mem_map.1 hmem
    by_cases hb : b' = b
    · subst hb
      have hpos := h.2
      rw [residual_pushAll hL ha] at hpos
      exact .inl ⟨h.1, lt_of_le_of_lt hd (sub_pos.1 hpos)⟩
    · have hflip : flip (i, b) = (i, b') := by
        cases b with
        | true => cases b' with
          | true => exact absurd rfl hb
          | false => rfl
        | false => cases b' with
          | true => rfl
          | false => exact absurd rfl hb
      exact .inr (hflip ▸ ha)
  · refine .inl ⟨h.1, ?_⟩
    have hpos := h.2
    unfold residual at hpos ⊢
    rw [pushAll_of_not_mem hmem] at hpos
    exact hpos

/-- **What stays of a potential**: the cost `δ` of cheapest paths to the nodes of a closed
    part, and the old potential outside, raised far enough. -/
theorem Potential.push (hφ : N.Potential x φ) {R : Nat → Prop} {δ : Nat → Int}
    (hR : ∀ a, N.Open x a → R (N.tail a) → R (N.head a) ∧ δ (N.head a) ≤ δ (N.tail a) + N.arcCost a)
    (hL : (L.map Prod.fst).Nodup) {d : Int} (hd : 0 ≤ d)
    (htight : ∀ a ∈ L, R (N.tail a) ∧ R (N.head a) ∧ δ (N.head a) = δ (N.tail a) + N.arcCost a) :
    ∃ ψ, N.Potential (pushAll d x L) ψ := by
  classical
  obtain ⟨K, hK⟩ : ∃ K : Int, ∀ a : Arc, a.1 < N.size → δ (N.head a) - φ (N.tail a) - N.arcCost a ≤ K := by
    have hbound : ∀ f : Arc → Int, ∃ K : Int, ∀ a : Arc, a.1 < N.size → f a ≤ K := by
      intro f
      refine ⟨∑ a ∈ Finset.range N.size ×ˢ Finset.univ, |f a|, fun a ha => ?_⟩
      have hmem : a ∈ Finset.range N.size ×ˢ (Finset.univ : Finset Bool) :=
        Finset.mem_product.2 ⟨Finset.mem_range.2 ha, Finset.mem_univ _⟩
      exact le_trans (le_abs_self _) (Finset.single_le_sum (fun b _ => abs_nonneg (f b)) hmem)
    exact hbound _
  refine ⟨fun v => if R v then δ v else φ v + K, fun a ha => ?_⟩
  dsimp only
  rcases open_pushAll hL hd ha with hopen | hflip
  · by_cases htail : R (N.tail a)
    · obtain ⟨hhead, hle⟩ := hR a hopen htail
      rw [if_pos hhead, if_pos htail]
      exact hle
    · rw [if_neg htail]
      split_ifs
      · have hle := hK a ha.1
        omega
      · have hle := hφ a hopen
        omega
  · obtain ⟨htail, hhead, heq⟩ := htight _ hflip
    rw [tail_flip] at htail heq
    rw [head_flip] at hhead heq
    rw [arcCost_flip] at heq
    rw [if_pos htail, if_pos hhead]
    omega

/-- No more leaves a node than its edges carry. -/
theorem Feasible.net_le (hx : N.Feasible s t x) (v : Nat) : N.net x v ≤ ∑ i ∈ Finset.range N.size, N.cap i := by
  refine Finset.sum_le_sum fun i hi => ?_
  have hi := Finset.mem_range.1 hi
  have h₀ := hx.nonneg i hi
  have h₁ := hx.le_cap i hi
  split_ifs
  · omega
  · omega
  · omega
  · omega

theorem feasible_zero (hcap : ∀ i < N.size, 0 ≤ N.cap i) : N.Feasible s t fun _ => 0 where
  nonneg _ _ := le_refl 0
  le_cap := hcap
  conserved v _ _ := by
    rw [net]
    refine Finset.sum_eq_zero fun i _ => ?_
    rw [ite_self, ite_self, sub_self]

end

end Network

end Wireform
