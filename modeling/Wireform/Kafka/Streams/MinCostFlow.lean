/-
  Minimum-cost maximum flow (`Kafka.Streams.Runtime.MinCostFlow`).

  Shortest paths in the residual graph, one after another, each found with a queue.

  * `toA`, `cap`, `cost`, `adjacency`: the arrays of the arcs; arc `2 i` is edge `i`, arc
    `2 i + 1` its reverse, and the arcs out of a node are a linked list;
  * `spfa`, `bottleneck`, `push`, `augment`: the search for a path, and the flow along it;
  * `minCostFlow`: the whole;
  * `network`, `arcOf`: the network that the edges are, and the arc at an index.

  An array that the program writes is a function, updated at one index; the loops take
  turns.
-/
import Wireform.MachineInt
import Wireform.Network
import Wireform.Turns

namespace Wireform.Kafka.Streams.MinCostFlow

/-- From, to, capacity and cost per unit of flow. -/
structure Edge where
  eFrom : Nat
  eTo : Nat
  eCap : Int
  eCost : Int
  deriving DecidableEq

/-- The largest `Int`: the distance of a node that is not reached. -/
def maxBound : Int := 2 ^ 63 - 1

/-! ## The arrays -/

section
variable (edges : List Edge)

def toA : List Nat := edges.flatMap fun e => [e.eTo, e.eFrom]

def cap : List Int := edges.flatMap fun e => [e.eCap, 0]

def cost : List Int := edges.flatMap fun e => [e.eCost, wrap (-e.eCost)]

def opposite (ix : Nat) : Nat := if ix % 2 = 0 then ix + 1 else ix - 1

/-- The first arc of each node, and the arc after each arc. -/
structure Adjacency where
  headA : Nat → Int
  nextA : Nat → Int

def link (adj : Adjacency) (frm ix : Nat) : Adjacency where
  headA := Function.update adj.headA frm ix
  nextA := Function.update adj.nextA ix (adj.headA frm)

def adjacency : Adjacency :=
  edges.zipIdx.foldl (fun adj (e, i) => link (link adj e.eFrom (2 * i)) e.eTo (2 * i + 1)) ⟨fun _ => -1, fun _ => -1⟩

/-! ## Shortest paths -/

structure Spfa where
  dist : Nat → Int
  via : Nat → Int
  inQ : Nat → Bool
  q : List Nat

def residual (flow : Nat → Int) (ix : Nat) : Int := subInt ((cap edges).getD ix 0) (flow ix)

def enqueue (st : Spfa) (v : Nat) : Spfa :=
  if st.inQ v then st else { st with inQ := Function.update st.inQ v true, q := st.q ++ [v] }

/-- An arc out of a node at distance `du`. -/
def relax (flow : Nat → Int) (du : Int) (st : Spfa) (ix : Nat) : Spfa :=
  if 0 < residual edges flow ix then
    let v := (toA edges).getD ix 0
    let nd := addInt du ((cost edges).getD ix 0)
    if nd < st.dist v then
      enqueue { st with dist := Function.update st.dist v nd, via := Function.update st.via v ix } v
    else st
  else st

/-- The arcs from `ix` on. -/
def walk (flow : Nat → Int) (du : Int) : Nat → Int → Spfa → Option Spfa
  | 0, _, _ => none
  | fuel + 1, ix, st =>
    if ix < 0 then some st
    else walk flow du fuel ((adjacency edges).nextA ix.toNat) (relax edges flow du st ix.toNat)

def loop (flow : Nat → Int) : Nat → Spfa → Option Spfa
  | 0, _ => none
  | fuel + 1, st =>
    match st.q with
    | [] => some st
    | u :: rest =>
      (walk edges flow (st.dist u) fuel ((adjacency edges).headA u)
        { st with q := rest, inQ := Function.update st.inQ u false }).bind (loop flow fuel)

def start (s : Nat) : Spfa where
  dist := Function.update (fun _ => maxBound) s 0
  via := fun _ => -1
  inQ := Function.update (fun _ => false) s true
  q := [s]

def spfa (s : Nat) (flow : Nat → Int) (fuel : Nat) : Option Spfa := loop edges flow fuel (start s)

/-! ## Augmenting -/

/-- The residual bottleneck along the path into a node. -/
def bottleneck (s : Nat) (flow via : Nat → Int) : Nat → Nat → Int → Option Int
  | 0, _, _ => none
  | fuel + 1, v, acc =>
    if v = s then some acc
    else
      let ix := (via v).toNat
      bottleneck s flow via fuel ((toA edges).getD (opposite ix) 0) (min acc (residual edges flow ix))

def push (s : Nat) (via : Nat → Int) (amt : Int) : Nat → Nat → (Nat → Int) → Option (Nat → Int)
  | 0, _, _ => none
  | fuel + 1, v, flow =>
    if v = s then some flow
    else
      let ix := (via v).toNat
      let flow := Function.update flow ix (addInt (flow ix) amt)
      let flow := Function.update flow (opposite ix) (subInt (flow (opposite ix)) amt)
      push s via amt fuel ((toA edges).getD (opposite ix) 0) flow

def augment (s t : Nat) : Nat → (Nat → Int) → Option (Nat → Int)
  | 0, _ => none
  | fuel + 1, flow =>
    (spfa edges s flow fuel).bind fun st =>
      if st.dist t ≠ maxBound then
        (bottleneck edges s flow st.via fuel t maxBound).bind fun amt =>
          (push edges s st.via amt fuel t flow).bind (augment s t fuel)
      else some flow

def flows (n s t : Nat) (fuel : Nat) : Option (Nat → Int) :=
  if 0 < n ∧ 0 < 2 * edges.length then augment edges s t fuel fun _ => 0 else some fun _ => 0

end

/-- The flow on each of the edges. -/
def minCostFlow (n s t : Nat) (edges : List Edge) (fuel : Nat) : Option (List Int) :=
  (flows edges n s t fuel).map fun flow => ((List.range edges.length).map fun i => 2 * i).map flow

attribute [grind =] walk loop bottleneck push augment

/-! ## The network -/

section
variable (edges : List Edge)

def edgeAt (i : Nat) : Edge := edges.getD i ⟨0, 0, 0, 0⟩

def network : Network where
  size := edges.length
  src i := (edgeAt edges i).eFrom
  dst i := (edgeAt edges i).eTo
  cap i := (edgeAt edges i).eCap
  cost i := (edgeAt edges i).eCost

end

def arcOf (ix : Nat) : Network.Arc := (ix / 2, decide (ix % 2 = 0))

theorem arcOf_opposite (ix : Nat) : arcOf (opposite ix) = Network.flip (arcOf ix) := by
  unfold arcOf opposite Network.flip
  split_ifs with h
  · refine Prod.ext (by dsimp only; omega) ?_
    have hodd : (ix + 1) % 2 ≠ 0 := by omega
    simp [h, hodd]
  · refine Prod.ext (by dsimp only; omega) ?_
    have heven : (ix - 1) % 2 = 0 := by omega
    simp [h, heven]

theorem opposite_lt {ix m : Nat} (h : ix < 2 * m) : opposite ix < 2 * m := by
  unfold opposite
  split_ifs
  · omega
  · omega

/-- The arc of an index and the index of an arc. -/
theorem exists_arcOf (a : Network.Arc) : ∃ ix, arcOf ix = a := by
  obtain ⟨i, b⟩ := a
  cases b with
  | true => exact ⟨2 * i, Prod.ext (by simp [arcOf]) (by simp [arcOf])⟩
  | false =>
    refine ⟨2 * i + 1, Prod.ext ?_ ?_⟩
    · show (2 * i + 1) / 2 = i
      omega
    · show decide ((2 * i + 1) % 2 = 0) = false
      rw [decide_eq_false_iff_not]
      omega

/-! ## What the arrays hold -/

section
variable {edges : List Edge} {ix : Nat}

/-- An array of two entries for each edge. -/
theorem getD_pairs {α : Type} (f g : Edge → α) (d : α) (h : ix < 2 * edges.length) :
    (edges.flatMap fun e => [f e, g e]).getD ix d =
      if ix % 2 = 0 then f (edgeAt edges (ix / 2)) else g (edgeAt edges (ix / 2)) := by
  induction edges generalizing ix with
  | nil => simp at h
  | cons e edges ih =>
    rw [List.flatMap_cons]
    match ix, h with
    | 0, _ => rfl
    | 1, _ => rfl
    | ix + 2, h =>
      rw [List.length_cons] at h
      have hdiv : (ix + 2) / 2 = ix / 2 + 1 := by omega
      have hmod : (ix + 2) % 2 = ix % 2 := by omega
      rw [hdiv, hmod]
      exact ih (by omega)

theorem toA_getD (h : ix < 2 * edges.length) : (toA edges).getD ix 0 = (network edges).head (arcOf ix) := by
  rw [toA, getD_pairs Edge.eTo Edge.eFrom 0 h]
  unfold Network.head arcOf
  by_cases hix : ix % 2 = 0
  · rw [if_pos hix, if_pos (decide_eq_true hix)]
    rfl
  · rw [if_neg hix, if_neg (by simpa using hix)]
    rfl

theorem cost_getD (hcost : |(edgeAt edges (ix / 2)).eCost| ≤ maxBound) (h : ix < 2 * edges.length) :
    (cost edges).getD ix 0 = (network edges).arcCost (arcOf ix) := by
  rw [cost, getD_pairs Edge.eCost (fun e => wrap (-e.eCost)) 0 h]
  unfold Network.arcCost arcOf
  by_cases hix : ix % 2 = 0
  · rw [if_pos hix, if_pos (decide_eq_true hix)]
    rfl
  · rw [if_neg hix, if_neg (by simpa using hix), wrap_eq]
    · rfl
    · unfold maxBound at hcost
      have := abs_le.1 hcost
      unfold InRange
      omega

/-- The flow on the arcs is the one on the edges, taken back on their reverses. -/
def Carries (flow x : Nat → Int) : Prop := ∀ i, flow (2 * i) = x i ∧ flow (2 * i + 1) = -x i

theorem residual_eq {flow x : Nat → Int} (hflow : Carries flow x) (h : ix < 2 * edges.length)
    (hcap : (edgeAt edges (ix / 2)).eCap ≤ maxBound) (h₀ : 0 ≤ x (ix / 2)) (h₁ : x (ix / 2) ≤ (edgeAt edges (ix / 2)).eCap) :
    residual edges flow ix = (network edges).residual x (arcOf ix) := by
  unfold maxBound at hcap
  rw [residual, cap, getD_pairs Edge.eCap (fun _ => 0) 0 h]
  unfold Network.residual arcOf
  obtain ⟨heven, hodd⟩ := hflow (ix / 2)
  by_cases hix : ix % 2 = 0
  · rw [show 2 * (ix / 2) = ix by omega] at heven
    rw [if_pos hix, if_pos (decide_eq_true hix), heven, subInt_eq]
    · rfl
    · unfold InRange
      omega
  · rw [show 2 * (ix / 2) + 1 = ix by omega] at hodd
    rw [if_neg hix, if_neg (by simpa using hix), hodd, subInt_eq]
    · show 0 - -x (ix / 2) = x (ix / 2)
      omega
    · unfold InRange
      omega

/-! ## The arcs out of a node -/

/-- The list that starts at an index. -/
def Linked (nextA : Nat → Int) : Int → List Nat → Prop
  | h, [] => h = -1
  | h, ix :: L => h = ix ∧ Linked nextA (nextA ix) L

theorem Linked.update {nextA : Nat → Int} {h : Int} {L : List Nat} (hL : Linked nextA h L) {k : Nat} (hk : k ∉ L)
    (z : Int) : Linked (Function.update nextA k z) h L := by
  induction L generalizing h with
  | nil => exact hL
  | cons ix L ih =>
    obtain ⟨rfl, hL⟩ := hL
    rw [List.mem_cons, not_or] at hk
    refine ⟨rfl, ?_⟩
    rw [Function.update_of_ne (Ne.symm hk.1)]
    exact ih hL hk.2

/-- The lists hold the first `k` arcs, each at its tail. -/
def Holds (edges : List Edge) (k : Nat) (adj : Adjacency) : Prop :=
  ∀ u, ∃ L, Linked adj.nextA (adj.headA u) L ∧ ∀ ix, ix ∈ L ↔ ix < k ∧ (network edges).tail (arcOf ix) = u

theorem Holds.link {k frm : Nat} {adj : Adjacency} (h : Holds edges k adj)
    (htail : (network edges).tail (arcOf k) = frm) : Holds edges (k + 1) (link adj frm k) := by
  intro u
  obtain ⟨L, hL, hmem⟩ := h u
  have hk : k ∉ L := fun hk => lt_irrefl k ((hmem k).1 hk).1
  by_cases hu : u = frm
  · subst hu
    refine ⟨k :: L, ⟨Function.update_self _ _ _, ?_⟩, fun ix => ?_⟩
    · show Linked (Function.update adj.nextA k (adj.headA u)) (Function.update adj.nextA k (adj.headA u) k) L
      rw [Function.update_self]
      exact hL.update hk _
    · rw [List.mem_cons, hmem]
      constructor
      · rintro (rfl | ⟨hlt, hix⟩)
        · exact ⟨Nat.lt_succ_self _, htail⟩
        · exact ⟨Nat.lt_succ_of_lt hlt, hix⟩
      · rintro ⟨hlt, hix⟩
        rcases Nat.lt_succ_iff_lt_or_eq.1 hlt with hlt | rfl
        · exact .inr ⟨hlt, hix⟩
        · exact .inl rfl
  · refine ⟨L, ?_, fun ix => ?_⟩
    · show Linked (Function.update adj.nextA k (adj.headA frm)) (Function.update adj.headA frm k u) L
      rw [Function.update_of_ne hu]
      exact hL.update hk _
    · rw [hmem]
      constructor
      · rintro ⟨hlt, hix⟩
        exact ⟨Nat.lt_succ_of_lt hlt, hix⟩
      · rintro ⟨hlt, hix⟩
        rcases Nat.lt_succ_iff_lt_or_eq.1 hlt with hlt | rfl
        · exact ⟨hlt, hix⟩
        · exact absurd (hix.symm.trans htail) hu

/-- **The lists hold all arcs**, each at its tail. -/
theorem adjacency_holds (edges : List Edge) : Holds edges (2 * edges.length) (adjacency edges) := by
  have hfold : ∀ (done rest : List Edge) (adj : Adjacency), edges = done ++ rest → Holds edges (2 * done.length) adj →
      Holds edges (2 * edges.length) ((rest.zipIdx done.length).foldl
        (fun adj (e, i) => link (link adj e.eFrom (2 * i)) e.eTo (2 * i + 1)) adj) := by
    intro done rest
    induction rest generalizing done with
    | nil =>
      intro adj hedges h
      rw [List.append_nil] at hedges
      subst hedges
      exact h
    | cons e rest ih =>
      intro adj hedges h
      have hedge : edgeAt edges done.length = e := by
        rw [edgeAt, hedges, List.getD_append_right _ _ _ _ (le_refl _), Nat.sub_self]
        rfl
      have heven : (network edges).tail (arcOf (2 * done.length)) = e.eFrom := by
        unfold Network.tail arcOf
        rw [if_pos (decide_eq_true (by omega)), Nat.mul_div_cancel_left _ (by omega), ← hedge]
        rfl
      have hodd : (network edges).tail (arcOf (2 * done.length + 1)) = e.eTo := by
        unfold Network.tail arcOf
        rw [if_neg (by rw [decide_eq_true_eq]; omega), show (2 * done.length + 1) / 2 = done.length by omega, ← hedge]
        rfl
      rw [List.zipIdx_cons, List.foldl_cons]
      have hnext := ih (done ++ [e]) (link (link adj e.eFrom (2 * done.length)) e.eTo (2 * done.length + 1))
        (by rw [hedges, List.append_assoc]; rfl)
      rw [List.length_append, List.length_singleton] at hnext
      exact hnext (by simpa [Nat.mul_add] using (h.link heven).link hodd)
  refine hfold [] edges ⟨fun _ => -1, fun _ => -1⟩ rfl fun u => ⟨[], rfl, fun ix => ?_⟩
  simp

/-- A walk along a list takes its arcs one after another. -/
theorem walk_finishes (flow : Nat → Int) (du : Int) {h : Int} {L : List Nat} (hL : Linked (adjacency edges).nextA h L)
    (st : Spfa) : Finishes (fun fuel => walk edges flow du fuel h st) (L.foldl (relax edges flow du) st) := by
  induction L generalizing h st with
  | nil =>
    have hh : h = -1 := hL
    exact (Finishes.const st).turn fun fuel => by rw [walk, if_pos (by omega)]
  | cons ix L ih =>
    obtain ⟨rfl, hL⟩ := hL
    refine (ih hL (relax edges flow du st ix)).turn fun fuel => ?_
    rw [walk, if_neg (by omega), Int.toNat_natCast]

end

end Wireform.Kafka.Streams.MinCostFlow
