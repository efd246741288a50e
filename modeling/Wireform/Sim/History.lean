/-
  The history of a run.

  `trace w ms` lists the moves of a run, each with the world before it.  From it
  the history of a run is read: the operations its fibers performed (`acts`),
  the messages they sent, the fibers that were started and killed, the faults
  fired and the fate of the variables.

  `ids_sorted`: identifiers that are drawn from a counter come in ascending
  order along a run.
-/
import Wireform.Sim.Frame

namespace Wireform.Sim

open AssocMap Transition

variable {P : Platform}

/-! ## Operations -/

/-- An operation, with the world it is performed in. -/
inductive Act (P : Platform) where
  | op (w : World P) (op : SimOp P)
  | fork (w : World P) (p : Prog P)

/-- What a program does up to its next yield point.  A read that raises an
    error is the last operation. -/
def acts (node : NodeId) : World P → Prog P → List (Act P)
  | w, .fork p k => .fork w p :: acts node (spawn node p w).2 (k (spawn node p w).1)
  | w, .bind op k =>
    .op w op ::
      match perform node w op with
      | .error _ => []
      | .ok (r, w', _) => acts node w' (k r)
  | _, .pure | _, .yield _ | _, .delay _ _ | _, .recv _ => []

/-- The operations of a move, with the node they are performed on. -/
def moveActs (w : World P) : Move → List (NodeId × Act P)
  | .decide (.schedNext f) =>
    match w.fibers.lookup f with
    | some ⟨node, .ready prog, .runnable⟩ => (acts node w prog).map fun a => (node, a)
    | _ => []
  | .decide (.deliverMsg _) | .decide (.fireFault _) | .tick => []

/-- The moves of a run, each with the world before it. -/
def trace : World P → List Move → List (World P × Move)
  | _, [] => []
  | w, m :: ms =>
    (w, m) ::
      match moveStep w m with
      | some w' => trace w' ms
      | none => []

attribute [grind =] trace

theorem trace_append {w w' : World P} {ms ms' : List Move} (h : run moveStep w ms = some w') :
    trace w (ms ++ ms') = trace w ms ++ trace w' ms' := by
  induction ms generalizing w with
  | nil =>
    cases h
    rfl
  | cons m ms ih =>
    obtain ⟨w₁, hm, hrun⟩ := run_cons.1 h
    simp only [List.cons_append, trace, hm, ih hrun]

theorem trace_snoc {w w' : World P} {ms : List Move} (h : run moveStep w ms = some w') (m : Move) :
    trace w (ms ++ [m]) = trace w ms ++ [(w', m)] := by
  rw [trace_append h, trace]
  cases moveStep w' m <;> rfl

/-! ## Messages -/

/-- A message as its sender gave it: id, source, destination and body. -/
abbrev Letter := MsgId × NodeId × NodeId × ByteString

def letterOf (m : MsgId) (inf : InFlight) : Letter := (m, inf.src, inf.dst, inf.body)

def sentBy : NodeId × Act P → Option Letter
  | (n, .op w (.send dst body)) => some (w.nextMsg, n, dst, body)
  | _ => none

def sentIn (e : World P × Move) : List Letter := (moveActs e.1 e.2).filterMap sentBy

/-- The messages sent in a run, lost ones included. -/
def sent (w : World P) (ms : List Move) : List Letter := (trace w ms).flatMap sentIn

/-! ## Faults and fibers -/

/-- The faults fired in a run. -/
def fired (w : World P) (ms : List Move) : List FaultOp := (trace w ms).filterMap fun e => firedFault e.1 e.2

def startedBy : NodeId × Act P → Option FiberId
  | (_, .fork w _) => some w.nextFiber
  | (_, .op _ _) => none

/-- The root program of a reboot. -/
def rebooted (w : World P) : FaultOp → List FiberId
  | .rebootNode n => if (w.nodePrograms.lookup n).isSome then [w.nextFiber] else []
  | _ => []

/-- The fibers a move starts: the forks of a fiber's step, the root program of a
    reboot. -/
def startedIn (e : World P × Move) : List FiberId :=
  (moveActs e.1 e.2).filterMap startedBy ++ (firedFault e.1 e.2).elim [] (rebooted e.1)

/-- The fibers started in a run. -/
def started (w : World P) (ms : List Move) : List FiberId := (trace w ms).flatMap startedIn

/-- The fibers a fault kills: those of a node that crashes. -/
def killedBy (w : World P) : FaultOp → List FiberId
  | .crashNode n => (w.fibers.filter fun x => x.2.node = n).map Prod.fst
  | _ => []

def killedIn (e : World P × Move) : List FiberId := (firedFault e.1 e.2).elim [] (killedBy e.1)

/-- The fibers killed in a run. -/
def killed (w : World P) (ms : List Move) : List FiberId := (trace w ms).flatMap killedIn

/-! ## Variables -/

/-- What happens to the variables of a node. -/
inductive VarEvent (P : Platform) where
  | created (n : NodeId) (v : SimVar) (τ : P.Ty)
  | used (n : NodeId) (v : SimVar) (τ : P.Ty)
  /-- the incarnation of the node ends -/
  | lost (n : NodeId)

def varBy : NodeId × Act P → Option (VarEvent P)
  | (n, .op w (.newVar τ _)) => some (.created n (nodeOf n w).heapCtr τ)
  | (n, .op _ (.readVar τ v)) | (n, .op _ (.writeVar τ v _)) | (n, .op _ (.modifyVar τ _ v _)) => some (.used n v τ)
  | _ => none

/-- A crash ends the incarnation of the node. -/
def lostBy : FaultOp → List (VarEvent P)
  | .crashNode n => [.lost n]
  | _ => []

def varsIn (e : World P × Move) : List (VarEvent P) :=
  (moveActs e.1 e.2).filterMap varBy ++ (firedFault e.1 e.2).elim [] lostBy

/-- What happens to the variables in a run. -/
def varEvents (w : World P) (ms : List Move) : List (VarEvent P) := (trace w ms).flatMap varsIn

/-- The variable was created by the current incarnation of the node. -/
def Live (evs : List (VarEvent P)) (n : NodeId) (v : SimVar) (τ : P.Ty) : Prop :=
  ∃ l₁ l₂, evs = l₁ ++ .created n v τ :: l₂ ∧ VarEvent.lost n ∉ l₂

/-- Every use is of a variable that the current incarnation of the node created. -/
def Own (evs : List (VarEvent P)) : Prop :=
  ∀ l₁ l₂ n v τ, evs = l₁ ++ .used n v τ :: l₂ → Live l₁ n v τ

theorem Own.left {evs evs' : List (VarEvent P)} (h : Own (evs ++ evs')) : Own evs := by
  rintro l₁ l₂ n v τ rfl
  exact h l₁ (l₂ ++ evs') n v τ (by rw [List.append_assoc, List.cons_append])

theorem live_snoc {evs : List (VarEvent P)} {e : VarEvent P} {n : NodeId} {v : SimVar} {τ : P.Ty}
    (h : Live (evs ++ [e]) n v τ) : e = .created n v τ ∨ (Live evs n v τ ∧ e ≠ .lost n) := by
  obtain ⟨l₁, l₂, heq, hlost⟩ := h
  rcases List.eq_nil_or_concat l₂ with rfl | ⟨l₃, e', rfl⟩
  · exact Or.inl (List.singleton_inj.1 (List.append_inj' heq rfl).2)
  · rw [List.concat_eq_append] at heq hlost
    rw [← List.cons_append, ← List.append_assoc] at heq
    obtain ⟨hevs, he⟩ := List.append_inj' heq rfl
    cases he
    rw [List.mem_append, not_or, List.mem_singleton] at hlost
    exact Or.inr ⟨⟨l₁, l₃, hevs, hlost.1⟩, fun h => hlost.2 h.symm⟩

/-! ## Identifiers come from a counter -/

/-- Ascending integers from `a` on, below `b`. -/
def Between (a b : Int) (l : List Int) : Prop := l.Pairwise (· < ·) ∧ ∀ i ∈ l, a ≤ i ∧ i < b

theorem Between.append {a b c : Int} {l l' : List Int} (hab : a ≤ b) (hbc : b ≤ c) (h : Between a b l)
    (h' : Between b c l') : Between a c (l ++ l') := by
  refine ⟨List.pairwise_append.2 ⟨h.1, h'.1, fun i hi j hj => (h.2 i hi).2.trans_le (h'.2 j hj).1⟩, fun i hi => ?_⟩
  rcases List.mem_append.1 hi with hi | hi
  · exact ⟨(h.2 i hi).1, (h.2 i hi).2.trans_le hbc⟩
  · exact ⟨hab.trans (h'.2 i hi).1, (h'.2 i hi).2⟩

theorem between_nil (a b : Int) : Between a b [] := ⟨List.Pairwise.nil, by simp⟩

theorem between_singleton {a b : Int} (h : a < b) : Between a b [a] :=
  ⟨List.pairwise_singleton _ _, by simpa using h⟩

theorem Between.nodup {a b : Int} {l : List Int} (h : Between a b l) : l.Nodup := h.1.imp fun {_ _} hlt => hlt.ne

/-- **Identifiers drawn from a counter ascend along a run.** -/
theorem ids_sorted (ctr : World P → Int) (ids : World P × Move → List Int)
    (hmove : ∀ {w w' : World P} {m : Move}, Good w → moveStep w m = some w' →
      ctr w ≤ ctr w' ∧ Between (ctr w) (ctr w') (ids (w, m)))
    {w w' : World P} (hg : Good w) {ms : List Move} (h : run moveStep w ms = some w') :
    ctr w ≤ ctr w' ∧ Between (ctr w) (ctr w') ((trace w ms).flatMap ids) := by
  induction ms generalizing w with
  | nil =>
    cases h
    exact ⟨le_rfl, between_nil _ _⟩
  | cons m ms ih =>
    obtain ⟨w₁, hm, hrun⟩ := run_cons.1 h
    obtain ⟨hle, hids⟩ := hmove hg hm
    obtain ⟨hle', hids'⟩ := ih (good_move hg hm) hrun
    rw [trace, hm, List.flatMap_cons]
    exact ⟨hle.trans hle', hids.append hle hle' hids'⟩

end Wireform.Sim
