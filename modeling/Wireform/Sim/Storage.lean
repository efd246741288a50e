/-
  The storage of the nodes along a run.

  * `StoreEvent`, `storeEvents`: the writes, reads, fsyncs, armings and crashes of a run;
  * `Log`: what they make of the writes to one key of one node: each is pending, durable or lost;
  * `Log.current`, `Log.latest`: the latest write that is not lost, and the latest of a kind;
  * `Calm`: no write lands durably while an earlier one to the key is pending;
  * `Stored`: the two maps of a node are the logs;
  * `storage_contract`: a calm run keeps the contract of the two tiers, and every run keeps the nodes apart.
-/
import Wireform.Sim.Variables
import Wireform.Sim.Conserve

namespace Wireform.Sim

open AssocMap Transition

variable {P : Platform}

/-! ## The writes to a key -/

/-- What happens to the storage of a node; `bit` is the word that is drawn for a corruption. -/
inductive StoreEvent where
  | torn (n : NodeId)
  | corrupted (n : NodeId)
  | wrote (n : NodeId) (key : Key) (body : ByteString) (bit : UInt64)
  | read (n : NodeId) (key : Key) (r : Option ByteString)
  | synced (n : NodeId)
  | crashed (n : NodeId)
deriving DecidableEq

inductive Fate where
  | pending | durable | lost
deriving DecidableEq

/-- The writes to a key of a node, oldest first, and what the next write of the node meets. -/
structure Log where
  tearing : Bool
  corrupting : Bool
  writes : List (ByteString × Fate)

def Log.start : Log := ⟨false, false, []⟩

/-- The fate of the pending writes is settled. -/
def Fate.settle (f : Fate) (e : ByteString × Fate) : ByteString × Fate := if e.2 = .pending then (e.1, f) else e

/-- A write: a torn one is pending and is stored as it is; of the others a corrupted one has one bit flipped. -/
def Log.write (j : Log) (body : ByteString) (bit : UInt64) : ByteString × Fate :=
  if j.tearing then (body, .pending)
  else if j.corrupting then (flipBitBS body bit.toInt64.toInt, .durable)
  else (body, .durable)

def Log.after (n : NodeId) (key : Key) (j : Log) : StoreEvent → Log
  | .torn n' => if n' = n then { j with tearing := true } else j
  | .corrupted n' => if n' = n then { j with corrupting := true } else j
  | .wrote n' key' body bit =>
    if n' = n then ⟨false, j.corrupting && j.tearing, j.writes ++ if key' = key then [j.write body bit] else []⟩ else j
  | .read _ _ _ => j
  | .synced n' => if n' = n then { j with writes := j.writes.map (Fate.settle .durable) } else j
  | .crashed n' => if n' = n then ⟨false, false, j.writes.map (Fate.settle .lost)⟩ else j

def logOf (n : NodeId) (key : Key) (evs : List StoreEvent) : Log := evs.foldl (Log.after n key) Log.start

theorem logOf_snoc (n : NodeId) (key : Key) (evs : List StoreEvent) (e : StoreEvent) :
    logOf n key (evs ++ [e]) = (logOf n key evs).after n key e := by
  rw [logOf, List.foldl_append]
  rfl

/-- The latest write that is not lost. -/
def Log.current (j : Log) : Option ByteString := (j.writes.reverse.find? fun e => e.2 ≠ .lost).map Prod.fst

/-- The latest write of a fate. -/
def Log.latest (j : Log) (f : Fate) : Option ByteString := (j.writes.reverse.find? fun e => e.2 = f).map Prod.fst

/-- No pending write is followed by a durable one. -/
def Log.Ordered (j : Log) : Prop := j.writes.Pairwise fun e e' => e.2 = .pending → e'.2 ≠ .durable

variable {evs : List StoreEvent} {w : World P} {n : NodeId} {j : Log} {ns : NodeState P}

/-- In an ordered log the latest write that is not lost is the latest pending one, if there is one. -/
theorem Log.current_eq (h : j.Ordered) : j.current = (j.latest .pending).or (j.latest .durable) := by
  have hrev : j.writes.reverse.Pairwise fun e e' => e'.2 = .pending → e.2 ≠ .durable := List.pairwise_reverse.2 h
  unfold Log.current Log.latest
  generalize j.writes.reverse = l at hrev
  induction l with
  | nil => rfl
  | cons e l ih =>
    obtain ⟨b, f⟩ := e
    obtain ⟨hhead, htail⟩ := List.pairwise_cons.1 hrev
    cases f with
    | pending => rfl
    | lost => exact ih htail
    | durable =>
      have hnone : (l.find? fun e => e.2 = .pending) = none :=
        List.find?_eq_none.2 fun e he hp => hhead e he (of_decide_eq_true hp) rfl
      simp [hnone]

/-- Nothing is pending once it is settled. -/
theorem not_pending_settle {f : Fate} (hf : f ≠ .pending) {l : List (ByteString × Fate)} :
    ∀ e ∈ l.map (Fate.settle f), e.2 ≠ .pending := by
  intro e he
  obtain ⟨e', -, rfl⟩ := List.mem_map.1 he
  unfold Fate.settle
  split_ifs with hp
  · exact hf
  · exact hp

/-- Settling the pending writes of an ordered log. -/
theorem Log.latest_settle_durable (h : j.Ordered) :
    ({ j with writes := j.writes.map (Fate.settle .durable) } : Log).latest .durable =
      (j.latest .pending).or (j.latest .durable) ∧
    ({ j with writes := j.writes.map (Fate.settle .durable) } : Log).latest .pending = none := by
  constructor
  · rw [← Log.current_eq h]
    unfold Log.latest Log.current
    simp only [← List.map_reverse, List.find?_map, Option.map_map]
    have hfind : (fun e : ByteString × Fate => decide (e.2 = .durable)) ∘ Fate.settle .durable =
        fun e => decide (e.2 ≠ .lost) := by
      funext e
      obtain ⟨b, f⟩ := e
      cases f <;> rfl
    rw [hfind]
    refine congrFun (congrArg Option.map ?_) _
    funext e
    obtain ⟨b, f⟩ := e
    cases f <;> rfl
  · have hfind : ((j.writes.map (Fate.settle .durable)).reverse.find? fun e => e.2 = .pending) = none :=
      List.find?_eq_none.2 fun e he hp =>
        not_pending_settle (by decide : Fate.durable ≠ .pending) e (List.mem_reverse.1 he) (of_decide_eq_true hp)
    rw [Log.latest, hfind]
    rfl

theorem Log.latest_settle_lost (j : Log) :
    ({ j with writes := j.writes.map (Fate.settle .lost) } : Log).latest .durable =
      j.latest .durable ∧ ({ j with writes := j.writes.map (Fate.settle .lost) } : Log).latest .pending = none := by
  unfold Log.latest
  simp only [← List.map_reverse, List.find?_map, Option.map_map]
  generalize j.writes.reverse = l
  constructor
  · induction l with
    | nil => rfl
    | cons e l ih =>
      obtain ⟨b, f⟩ := e
      cases f with
      | durable => rfl
      | pending => exact ih
      | lost => exact ih
  · induction l with
    | nil => rfl
    | cons e l ih =>
      obtain ⟨b, f⟩ := e
      cases f <;> exact ih

theorem Log.Ordered.settle (f : Fate) (hf : f ≠ .pending) (h : j.Ordered) :
    ({ j with writes := j.writes.map (Fate.settle f) } : Log).Ordered := by
  refine List.pairwise_map.2 (h.imp fun {e e'} _ hp => ?_)
  unfold Fate.settle at hp
  split_ifs at hp with hpend
  · exact absurd hp hf
  · exact absurd hp hpend

/-- A write at the end of the log. -/
theorem Log.latest_snoc (j : Log) (t c : Bool) (e : ByteString × Fate) (f : Fate) :
    (⟨t, c, j.writes ++ [e]⟩ : Log).latest f = if e.2 = f then some e.1 else j.latest f := by
  unfold Log.latest
  simp only [List.reverse_append, List.reverse_singleton, List.singleton_append, List.find?_cons]
  by_cases h : e.2 = f <;> simp [h]

/-! ## The events of a run -/

def storeBy : NodeId × Act P → Option StoreEvent
  | (n, .op w (.storeWrite key body)) => some (.wrote n key body (P.nextWord64 w.gen).1)
  | (n, .op w (.storeRead key)) => some (.read n key (doStoreRead n key w))
  | (n, .op _ .fsync) => some (.synced n)
  | _ => none

def storeFault : FaultOp → List StoreEvent
  | .tearWrite n => [.torn n]
  | .corruptWrite n => [.corrupted n]
  | .crashNode n => [.crashed n]
  | _ => []

def storeIn (e : World P × Move) : List StoreEvent :=
  (moveActs e.1 e.2).filterMap storeBy ++ (firedFault e.1 e.2).elim [] storeFault

/-- What happens to the storage in a run. -/
def storeEvents (w : World P) (ms : List Move) : List StoreEvent := (trace w ms).flatMap storeIn

/-- A write lands durably only where no write to the key is pending. -/
def Calm (evs : List StoreEvent) : Prop :=
  ∀ l₁ n key body bit l₂, evs = l₁ ++ .wrote n key body bit :: l₂ →
    (logOf n key l₁).tearing = true ∨ ∀ e ∈ (logOf n key l₁).writes, e.2 ≠ .pending

theorem Calm.left {evs evs' : List StoreEvent} (h : Calm (evs ++ evs')) : Calm evs := by
  rintro l₁ n key body bit l₂ rfl
  exact h l₁ n key body bit (l₂ ++ evs') (by rw [List.append_assoc, List.cons_append])

theorem Calm.nil : Calm [] := fun _ _ _ _ _ _ h => absurd h (by simp)

/-- An event at the end of a list. -/
theorem snoc_cases {α : Type} {xs l₁ l₂ : List α} {x y : α} (h : xs ++ [y] = l₁ ++ x :: l₂) :
    (xs = l₁ ∧ y = x) ∨ ∃ l₃, xs = l₁ ++ x :: l₃ := by
  rcases List.eq_nil_or_concat l₂ with rfl | ⟨l₃, z, rfl⟩
  · obtain ⟨hl, hlast⟩ := List.append_inj' h rfl
    exact Or.inl ⟨hl, List.singleton_inj.1 hlast⟩
  · rw [List.concat_eq_append, ← List.cons_append, ← List.append_assoc] at h
    exact Or.inr ⟨l₃, (List.append_inj' h rfl).1⟩

theorem Calm.snoc (h : Calm evs) {e : StoreEvent}
    (he : ∀ n key body bit, e = .wrote n key body bit →
      (logOf n key evs).tearing = true ∨ ∀ e ∈ (logOf n key evs).writes, e.2 ≠ .pending) : Calm (evs ++ [e]) := by
  intro l₁ n key body bit l₂ heq
  rcases snoc_cases heq with ⟨rfl, rfl⟩ | ⟨l₃, hl⟩
  · exact he n key body bit rfl
  · exact h l₁ n key body bit l₃ hl

/-- Every read gave the latest write that was not lost. -/
def Answered (evs : List StoreEvent) : Prop :=
  ∀ l₁ n key r l₂, evs = l₁ ++ .read n key r :: l₂ → r = (logOf n key l₁).current

theorem Answered.snoc (h : Answered evs) {e : StoreEvent}
    (he : ∀ n key r, e = .read n key r → r = (logOf n key evs).current) : Answered (evs ++ [e]) := by
  intro l₁ n key r l₂ heq
  rcases snoc_cases heq with ⟨rfl, rfl⟩ | ⟨l₃, hl⟩
  · exact he n key r rfl
  · exact h l₁ n key r l₃ hl

/-! ## The maps of a node -/

/-- The two maps of a node at a key, against its log. -/
structure Shows (ns : NodeState P) (key : Key) (j : Log) : Prop where
  tearing : ns.tearArmed = j.tearing
  corrupting : ns.corruptArmed = j.corrupting
  pending : ns.volatile.lookup key = j.latest .pending
  durable : ns.durable.lookup key = j.latest .durable
  ordered : j.Ordered
  ascending : Ascending ns.volatile

/-- Nothing of the storage differs. -/
structure SameStore (ns ns' : NodeState P) : Prop where
  tearing : ns'.tearArmed = ns.tearArmed
  corrupting : ns'.corruptArmed = ns.corruptArmed
  pending : ns'.volatile = ns.volatile
  durable : ns'.durable = ns.durable

theorem SameStore.refl (ns : NodeState P) : SameStore ns ns := ⟨rfl, rfl, rfl, rfl⟩

theorem Shows.congr {ns ns' : NodeState P} {key : Key} (h : Shows ns key j) (hs : SameStore ns ns') :
    Shows ns' key j where
  tearing := hs.tearing.trans h.tearing
  corrupting := hs.corrupting.trans h.corrupting
  pending := by rw [hs.pending, h.pending]
  durable := by rw [hs.durable, h.durable]
  ordered := h.ordered
  ascending := hs.pending ▸ h.ascending

/-- The maps are the logs, for every node and key. -/
def Stored (evs : List StoreEvent) (w : World P) : Prop := ∀ n key, Shows (nodeOf n w) key (logOf n key evs)

theorem Stored.congr {w w' : World P} (h : Stored evs w)
    (hs : ∀ n, SameStore (nodeOf n w) (nodeOf n w')) : Stored evs w' := fun n key => (h n key).congr (hs n)

/-- **A read gives the latest write that is not lost.** -/
theorem Stored.read (h : Stored evs w) (n : NodeId) (key : Key) :
    doStoreRead n key w = (logOf n key evs).current := by
  have hn := h n key
  rw [Log.current_eq hn.ordered, ← hn.pending, ← hn.durable]
  rfl

/-- An event of another node. -/
theorem Log.after_other {n n' : NodeId} (hn : n ≠ n') (key : Key) (j : Log) :
    j.after n' key (.torn n) = j ∧ j.after n' key (.corrupted n) = j ∧ (∀ k b x, j.after n' key (.wrote n k b x) = j) ∧
      j.after n' key (.synced n) = j ∧ j.after n' key (.crashed n) = j := by
  simp only [Log.after, if_neg hn, implies_true, and_self]

/-- One more write to the key, or to another one. -/
theorem Shows.append {ns ns' : NodeState P} {key key' : Key} {t c : Bool} {e : ByteString × Fate}
    (h : Shows ns key' j) (htear : ns'.tearArmed = t) (hcorrupt : ns'.corruptArmed = c)
    (hpend : ns'.volatile = if e.2 = .pending then AssocMap.insert key e.1 ns.volatile else ns.volatile)
    (hdur : ns'.durable = if e.2 = .durable then AssocMap.insert key e.1 ns.durable else ns.durable)
    (hcalm : key = key' → e.2 = .durable → ∀ e ∈ j.writes, e.2 ≠ .pending) :
    Shows ns' key' ⟨t, c, j.writes ++ if key = key' then [e] else []⟩ := by
  have hlookup (f : Fate) (m : AssocMap Key ByteString) (hm : m.lookup key' = j.latest f) :
      (if e.2 = f then AssocMap.insert key e.1 m else m).lookup key' =
        (⟨t, c, j.writes ++ if key = key' then [e] else []⟩ : Log).latest f := by
    by_cases hk : key = key'
    · subst hk
      rw [if_pos rfl, Log.latest_snoc]
      split_ifs
      · rw [lookup_insert, if_pos rfl]
      · exact hm
    · rw [if_neg hk, List.append_nil]
      split_ifs
      · rw [lookup_insert, if_neg (Ne.symm hk)]
        exact hm
      · exact hm
  refine ⟨htear, hcorrupt, ?_, ?_, ?_, ?_⟩
  · rw [hpend]
    exact hlookup .pending _ h.pending
  · rw [hdur]
    exact hlookup .durable _ h.durable
  · refine List.pairwise_append.2 ⟨h.ordered, ?_, fun a ha b hb hp hd => ?_⟩
    · split_ifs <;> simp
    · split_ifs at hb with hk
      · rw [List.mem_singleton.1 hb] at hd
        exact hcalm hk hd a ha hp
      · cases hb
  · rw [hpend]
    split_ifs
    · exact h.ascending.insert _ _
    · exact h.ascending

/-- **A write.** -/
theorem stored_write (h : Stored evs w) (n : NodeId) (key : Key)
    (body : ByteString)
    (hcalm : (logOf n key evs).tearing = true ∨ ∀ e ∈ (logOf n key evs).writes, e.2 ≠ .pending) :
    Stored (evs ++ [.wrote n key body (P.nextWord64 w.gen).1]) (doStoreWrite n key body w) := by
  intro n' key'
  rw [logOf_snoc]
  by_cases hn : n = n'
  · subst hn
    have hs := h n key'
    have htear := hs.tearing
    have hcorrupt := hs.corrupting
    have hcalm' (ht : ¬(nodeOf n w).tearArmed = true) (hk : key = key') :
        ∀ e ∈ (logOf n key' evs).writes, e.2 ≠ .pending := by
      subst hk
      exact hcalm.resolve_left fun h => ht (htear.trans h)
    generalize logOf n key' evs = j at hs hcalm' htear hcorrupt
    rw [Log.after, if_pos rfl, doStoreWrite, Log.write, ← htear, ← hcorrupt]
    dsimp only
    by_cases ht : (nodeOf n w).tearArmed = true
    · -- torn: the write is pending
      simp only [if_pos ht]
      rw [nodeOf_setNode, if_pos rfl]
      exact hs.append rfl (by simp [ht]) rfl rfl fun _ he => by cases he
    · by_cases hc : (nodeOf n w).corruptArmed = true
      · simp only [if_neg ht, if_pos hc]
        rw [nodeOf_setNode, if_pos rfl]
        exact hs.append (by simpa using ht) (by simp [ht]) rfl rfl fun hk _ => hcalm' ht hk
      · simp only [if_neg ht, if_neg hc]
        rw [nodeOf_setNode, if_pos rfl]
        exact hs.append (by simpa using ht) (by simp [hc]) rfl rfl fun hk _ => hcalm' ht hk
  · have hnode : nodeOf n' (doStoreWrite n key body w) = nodeOf n' w := by
      unfold doStoreWrite
      dsimp only
      split_ifs <;> exact (nodeOf_setNode _ _ _ _).trans (if_neg (Ne.symm hn))
    rw [hnode, (Log.after_other hn key' _).2.2.1]
    exact h n' key'

theorem lookup_fsync (h : Ascending ns.volatile) (key : Key) :
    (ns.volatile.foldl (fun m e => AssocMap.insert e.1 e.2 m) ns.durable).lookup key =
      (ns.volatile.lookup key).or (ns.durable.lookup key) := by
  generalize ns.volatile = m at h
  generalize ns.durable = d
  induction m generalizing d with
  | nil => rfl
  | cons e m ih =>
    obtain ⟨k, v⟩ := e
    obtain ⟨hlt, hm⟩ := List.pairwise_cons.1 h
    rw [List.foldl_cons, ih hm, lookup_insert]
    by_cases hk : key = k
    · subst hk
      have hnone : AssocMap.lookup key m = none := lookup_eq_none fun hmem => by
        obtain ⟨e, he, heq⟩ := List.mem_map.1 hmem
        exact absurd (hlt e he) (heq ▸ lt_irrefl _)
      rw [hnone, if_pos rfl, AssocMap.lookup, if_pos rfl]
      rfl
    · rw [if_neg hk, AssocMap.lookup, if_neg hk]

/-- **An fsync.** -/
theorem stored_fsync (h : Stored evs w) (n : NodeId) :
    Stored (evs ++ [.synced n]) (doFsync n w) := by
  intro n' key
  rw [logOf_snoc, doFsync, nodeOf_setNode]
  by_cases hn : n = n'
  · subst hn
    have hs := h n key
    obtain ⟨hdur, hpend⟩ := Log.latest_settle_durable hs.ordered
    rw [Log.after, if_pos rfl, if_pos rfl]
    refine ⟨hs.tearing, hs.corrupting, ?_, ?_, hs.ordered.settle .durable (by decide), List.Pairwise.nil⟩
    · exact hpend.symm
    · rw [hdur, ← hs.pending, ← hs.durable]
      exact lookup_fsync hs.ascending key
  · rw [if_neg (Ne.symm hn), (Log.after_other hn key _).2.2.2.1]
    exact h n' key

/-! ## One operation -/

theorem sameStore_setNode {n n' : NodeId} (h : SameStore (nodeOf n w) ns) :
    SameStore (nodeOf n' w) (nodeOf n' (setNode n ns w)) := by
  rw [nodeOf_setNode]
  split_ifs with hn
  · exact hn ▸ h
  · exact .refl _

theorem stored_silent {w w' : World P} (h : Stored evs w)
    (hs : ∀ n, SameStore (nodeOf n w) (nodeOf n w')) : Stored (evs ++ []) w' := by
  rw [List.append_nil]
  exact h.congr hs

theorem nodeOf_send (src dst : NodeId) (body : ByteString) (w : World P) (n : NodeId) :
    nodeOf n (doSend src dst body w).1 = nodeOf n w := by
  unfold doSend
  dsimp only
  split_ifs <;> rfl

theorem nodeOf_buggify (s : SiteId) (p : Float) (w : World P) (n : NodeId) :
    nodeOf n (doBuggify s p w).2 = nodeOf n w := by
  unfold doBuggify
  split
  · rfl
  · split <;> rfl

/-- **An operation** keeps the maps and the logs together, and a read gives the latest write that is not lost. -/
theorem stored_perform {node : NodeId} {w w' : World P} {op : SimOp P} {r : op.Result}
    {es : List SimEvent} (h : Stored evs w) (ha : Answered evs) (hp : perform node w op = .ok (r, w', es))
    (hcalm : Calm (evs ++ (storeBy (node, .op w op)).toList)) :
    Stored (evs ++ (storeBy (node, .op w op)).toList) w' ∧ Answered (evs ++ (storeBy (node, .op w op)).toList) := by
  have hquiet {w'' : World P} (hs : ∀ n, SameStore (nodeOf n w) (nodeOf n w'')) :
      Stored (evs ++ []) w'' ∧ Answered (evs ++ []) :=
    ⟨stored_silent h hs, by rwa [List.append_nil]⟩
  cases op with
  | storeWrite key body =>
    cases hp
    refine ⟨stored_write h node key body (hcalm evs node key body _ [] rfl), ha.snoc fun _ _ _ he => ?_⟩
    cases he
  | storeRead key =>
    cases hp
    refine ⟨fun n key' => ?_, ha.snoc fun _ _ _ he => ?_⟩
    · show Shows _ _ (logOf n key' (evs ++ [_]))
      rw [logOf_snoc]
      exact h n key'
    · cases he
      exact h.read node key
  | fsync =>
    cases hp
    exact ⟨stored_fsync h node, ha.snoc fun _ _ _ he => by cases he⟩
  | newVar τ a | writeVar τ v a =>
    cases hp
    exact hquiet fun n => sameStore_setNode ⟨rfl, rfl, rfl, rfl⟩
  | modifyVar τ σ v f =>
    rw [perform] at hp
    cases hr : doReadVar node τ v w with
    | error e => rw [hr] at hp; cases hp
    | ok a =>
      rw [hr] at hp
      cases hp
      exact hquiet fun n => sameStore_setNode ⟨rfl, rfl, rfl, rfl⟩
  | readVar τ v =>
    rw [perform] at hp
    cases hr : doReadVar node τ v w with
    | error e => rw [hr] at hp; cases hp
    | ok a =>
      rw [hr] at hp
      cases hp
      exact hquiet fun n => .refl _
  | send dst body =>
    cases hp
    exact hquiet fun n => nodeOf_send node dst body w n ▸ .refl _
  | buggify s p =>
    cases hp
    exact hquiet fun n => nodeOf_buggify s p w n ▸ .refl _
  | getTime | whoAmI | drawWord | cover | observe | assertOp | logMsg =>
    cases hp
    exact hquiet fun n => .refl _

/-- **A fiber's step.** -/
theorem stored_goP {node : NodeId} {prog : Prog P} :
    ∀ {evs : List StoreEvent} {evAcc es : List SimEvent} {w w' : World P} {out : StepOut P}, Stored evs w →
    Answered evs → runReady.goP node evAcc w prog = .ok (w', es, out) →
    Calm (evs ++ (acts node w prog).filterMap fun a => storeBy (node, a)) →
    Stored (evs ++ (acts node w prog).filterMap fun a => storeBy (node, a)) w' ∧
      Answered (evs ++ (acts node w prog).filterMap fun a => storeBy (node, a)) := by
  induction prog with
  | pure | yield | delay | recv =>
    intro evs evAcc es w w' out h ha hrun _
    cases hrun
    rw [acts, List.filterMap_nil, List.append_nil]
    exact ⟨h, ha⟩
  | fork p k _ ih =>
    intro evs evAcc es w w' out h ha hrun hcalm
    exact ih _ (h.congr fun _ => .refl _) ha hrun hcalm
  | bind op k ih =>
    intro evs evAcc es w w' out h ha hrun hcalm
    rw [runReady.goP] at hrun
    cases hp : perform node w op with
    | error e => rw [hp] at hrun; cases hrun
    | ok res =>
      obtain ⟨r, w₁, es₁⟩ := res
      rw [hp] at hrun
      rw [acts, hp, filterMap_cons_toList, ← List.append_assoc] at hcalm ⊢
      obtain ⟨h₁, ha₁⟩ := stored_perform h ha hp hcalm.left
      exact ih r h₁ ha₁ hrun hcalm

/-! ## Faults and moves -/

theorem lookup_modNode (n n' : NodeId) (f : NodeState P → NodeState P) (w : World P) :
    (modNode n f w).nodes.lookup n' = if n' = n then (w.nodes.lookup n).map f else w.nodes.lookup n' :=
  lookup_adjust f n n' w.nodes

theorem nodeOf_modNode (h : w.nodes.lookup n = some ns)
    (f : NodeState P → NodeState P) (n' : NodeId) :
    nodeOf n' (modNode n f w) = if n' = n then f (nodeOf n w) else nodeOf n' w := by
  rw [nodeOf, lookup_modNode]
  split_ifs
  · rw [nodeOf_of_lookup h, h]
    rfl
  · rfl

theorem sameStore_modNode (n n' : NodeId) {f : NodeState P → NodeState P} (w : World P)
    (hf : ∀ ns, SameStore ns (f ns)) : SameStore (nodeOf n' w) (nodeOf n' (modNode n f w)) := by
  unfold nodeOf
  rw [lookup_modNode]
  split_ifs with hn
  · rw [hn]
    cases w.nodes.lookup n with
    | none => exact .refl _
    | some ns => exact hf ns
  · exact .refl _

theorem nodeOf_reboot (n n' : NodeId) (w : World P) : SameStore (nodeOf n' w) (nodeOf n' (rebootNode n w)) := by
  unfold rebootNode
  dsimp only
  split
  · exact sameStore_setNode ⟨rfl, rfl, rfl, rfl⟩
  · have hsame : SameStore (nodeOf n w) { nodeOf n w with alive := true, pausedUntil := none } := ⟨rfl, rfl, rfl, rfl⟩
    exact sameStore_setNode hsame

/-- The nodes of the menu are there. -/
theorem fired_lookup (hg : Good w) {m : Move} {op : FaultOp} (h : firedFault w m = some op)
    (hop : op = .tearWrite n ∨ op = .corruptWrite n ∨ op = .crashNode n) : ∃ ns, w.nodes.lookup n = some ns := by
  obtain ⟨k, hk⟩ := mem_forKind_of_fired h
  have hmem : n ∈ aliveNodes w := by
    rcases hop with rfl | rfl | rfl <;> cases k <;> simp [forKind] at hk
    · exact hk.1
    · exact hk.1
    · exact hk
  obtain ⟨ns, hns, -⟩ := alive_of_mem hg hmem
  exact ⟨ns, hns⟩

theorem Answered.quiet (h : Answered evs) (op : FaultOp) : Answered (evs ++ storeFault op) := by
  cases op with
  | tearWrite | corruptWrite | crashNode => exact h.snoc fun _ _ _ he => by cases he
  | _ => exact (List.append_nil evs).symm ▸ h

/-- **A fault.** -/
theorem stored_fault (hg : Good w) {m : Move} {op : FaultOp}
    (hop : firedFault w m = some op) (h : Stored evs w) : Stored (evs ++ storeFault op) (applyFault op w).1 := by
  cases op with
  | tearWrite n =>
    obtain ⟨ns, hns⟩ := fired_lookup hg hop (Or.inl rfl)
    intro n' key
    rw [storeFault, logOf_snoc]
    show Shows (nodeOf n' (modNode n _ w)) key _
    rw [nodeOf_modNode hns, Log.after]
    have hs := h n' key
    by_cases hn : n' = n
    · subst hn
      rw [if_pos rfl, if_pos rfl]
      exact { hs with tearing := rfl }
    · rw [if_neg hn, if_neg (Ne.symm hn)]
      exact hs
  | corruptWrite n =>
    obtain ⟨ns, hns⟩ := fired_lookup hg hop (Or.inr (Or.inl rfl))
    intro n' key
    rw [storeFault, logOf_snoc]
    show Shows (nodeOf n' (modNode n _ w)) key _
    rw [nodeOf_modNode hns, Log.after]
    have hs := h n' key
    by_cases hn : n' = n
    · subst hn
      rw [if_pos rfl, if_pos rfl]
      exact { hs with corrupting := rfl }
    · rw [if_neg hn, if_neg (Ne.symm hn)]
      exact hs
  | crashNode n =>
    obtain ⟨ns, hns⟩ := fired_lookup hg hop (Or.inr (Or.inr rfl))
    intro n' key
    rw [storeFault, logOf_snoc]
    show Shows (nodeOf n' (modNode n clearVol w)) key _
    rw [nodeOf_modNode hns, Log.after]
    have hs := h n' key
    by_cases hn : n' = n
    · subst hn
      rw [if_pos rfl, if_pos rfl]
      obtain ⟨hdur, hpend⟩ := Log.latest_settle_lost (logOf n' key evs)
      exact ⟨rfl, rfl, hpend.symm, hs.durable.trans hdur.symm, hs.ordered.settle .lost (by decide), List.Pairwise.nil⟩
    · rw [if_neg hn, if_neg (Ne.symm hn)]
      exact hs
  | rebootNode n => exact stored_silent h fun n' => nodeOf_reboot n n' w
  | dropMessage | partition | heal | clog => exact stored_silent h fun _ => .refl _
  | pauseNode n t | clockSkew n t | diskLatency n t =>
    exact stored_silent h fun n' => sameStore_modNode n n' w fun _ => ⟨rfl, rfl, rfl, rfl⟩

theorem sameStore_advanceClock (w : World P) (n : NodeId) : SameStore (nodeOf n w) (nodeOf n (advanceClock w)) := by
  obtain ⟨clk, _, h | h⟩ := advanceClock_eq w
  · have hlookup : (advanceClock w).nodes.lookup n = (w.nodes.lookup n).map (unpause clk) := by
      rw [h]
      exact lookup_map (unpause clk) n w.nodes
    unfold nodeOf
    rw [hlookup]
    cases w.nodes.lookup n with
    | none => exact .refl _
    | some ns =>
      show SameStore ns (unpause clk ns)
      unfold unpause
      split
      · split_ifs <;> exact ⟨rfl, rfl, rfl, rfl⟩
      · exact .refl _
  · rw [h]
    exact .refl _

/-- **A move.** -/
theorem stored_move {w w' : World P} {m : Move} (hg : Good w) (h : Stored evs w)
    (ha : Answered evs) (hm : moveStep w m = some w') (hcalm : Calm (evs ++ storeIn (w, m))) :
    Stored (evs ++ storeIn (w, m)) w' ∧ Answered (evs ++ storeIn (w, m)) := by
  cases moved hg hm with
  | @ran f fb prog w₁ es out hf hs hr hup hrun =>
    have hin : storeIn (w, .decide (.schedNext f)) = (acts fb.node w prog).filterMap fun a => storeBy (fb.node, a) := by
      rw [storeIn, moveActs_ran hf hs hr, List.filterMap_map]
      exact List.append_nil _
    rw [hin] at hcalm ⊢
    obtain ⟨hstored, hans⟩ := stored_goP h ha hrun hcalm
    exact ⟨hstored.congr fun _ => .refl _, hans⟩
  | delivered => exact ⟨stored_silent h fun _ => .refl _, (List.append_nil evs).symm ▸ ha⟩
  | @fired i op hop =>
    have hin : storeIn (w, .decide (.fireFault i)) = storeFault op := by
      rw [storeIn, hop]
      rfl
    rw [hin]
    exact ⟨(stored_fault hg hop h).congr fun _ => .refl _, ha.quiet op⟩
  | ticked => exact ⟨stored_silent h fun n => sameStore_advanceClock w n, (List.append_nil evs).symm ▸ ha⟩

theorem nodeOf_start (seed : Seed) (buggify : AssocMap SiteId Bool) (scen : Scenario P) (n : NodeId) :
    nodeOf n (startWorld seed buggify scen) = freshNode := by
  unfold nodeOf
  cases hn : (startWorld seed buggify scen).nodes.lookup n with
  | none => rfl
  | some ns =>
    obtain ⟨n', -, heq⟩ := List.mem_map.1 (mem_of_lookup_fromList hn)
    cases heq
    rfl

/-- **A run.** -/
theorem stored_run (seed : Seed) (buggify : AssocMap SiteId Bool) (scen : Scenario P) {ms : List Move}
    (hrun : run moveStep (startWorld seed buggify scen) ms = some w)
    (hcalm : Calm (storeEvents (startWorld seed buggify scen) ms)) :
    Stored (storeEvents (startWorld seed buggify scen) ms) w ∧
      Answered (storeEvents (startWorld seed buggify scen) ms) := by
  induction ms using List.reverseRecOn generalizing w with
  | nil =>
    cases hrun
    refine ⟨fun n key => ?_, fun l₁ n key r l₂ h => ?_⟩
    · rw [nodeOf_start]
      exact ⟨rfl, rfl, rfl, rfl, List.Pairwise.nil, List.Pairwise.nil⟩
    · exact absurd h (by simp [storeEvents, trace])
  | append_singleton ms m ih =>
    obtain ⟨w₁, hrun₁, hm⟩ := run_append.1 hrun
    obtain ⟨w₂, hm, hnil⟩ := run_cons.1 hm
    cases hnil
    have hevs : storeEvents (startWorld seed buggify scen) (ms ++ [m]) =
        storeEvents (startWorld seed buggify scen) ms ++ storeIn (w₁, m) := by
      rw [storeEvents, trace_snoc hrun₁, List.flatMap_append, List.flatMap_singleton]
      rfl
    rw [hevs] at hcalm ⊢
    obtain ⟨hstored, hans⟩ := ih hrun₁ hcalm.left
    exact stored_move (good_run (good_start seed buggify scen) hrun₁) hstored hans hm hcalm

/-! ## The nodes are apart -/

def faultNode : FaultOp → Option NodeId
  | .crashNode n | .rebootNode n | .corruptWrite n | .tearWrite n => some n
  | .pauseNode n _ | .clockSkew n _ | .diskLatency n _ => some n
  | .dropMessage _ | .partition _ _ | .heal _ _ | .clog _ _ _ => none

/-- The node of a move: that of the fiber that runs, or that of the fault. -/
def moveNode (w : World P) : Move → Option NodeId
  | .decide (.schedNext f) => (w.fibers.lookup f).map Fiber.node
  | .decide (.fireFault i) => (firedFault w (.decide (.fireFault i))).bind faultNode
  | .decide (.deliverMsg _) | .tick => none

/-- A move leaves the storage and the variables of the other nodes. -/
def Apart (w : World P) : Prop := ∀ m w' n, moveStep w m = some w' → moveNode w m ≠ some n →
  SameStore (nodeOf n w) (nodeOf n w') ∧ vars n w' = vars n w

theorem apart_of_nodeOf {w w' : World P} (h : nodeOf n w' = nodeOf n w) :
    SameStore (nodeOf n w) (nodeOf n w') ∧ vars n w' = vars n w := by
  rw [vars, vars, h]
  exact ⟨.refl _, rfl⟩

theorem nodeOf_modNode_other {n n' : NodeId} (h : n ≠ n') (f : NodeState P → NodeState P) (w : World P) :
    nodeOf n' (modNode n f w) = nodeOf n' w := by
  rw [nodeOf, lookup_modNode, if_neg (Ne.symm h)]
  rfl

theorem nodeOf_fault_other {op : FaultOp} (h : faultNode op ≠ some n) (w : World P) :
    nodeOf n (applyFault op w).1 = nodeOf n w := by
  cases op with
  | dropMessage | partition | heal | clog => rfl
  | rebootNode n' =>
    have hn : n ≠ n' := fun he => h (he ▸ rfl)
    have hset (ns : NodeState P) : nodeOf n (setNode n' ns w) = nodeOf n w := (nodeOf_setNode _ _ _ _).trans (if_neg hn)
    show nodeOf n (rebootNode n' w) = _
    unfold rebootNode
    dsimp only
    split
    · exact hset _
    · exact hset _
  | crashNode n' => exact nodeOf_modNode_other (fun he => h (congrArg some he)) clearVol w
  | pauseNode n' | clockSkew n' | corruptWrite n' | tearWrite n' | diskLatency n' =>
    exact nodeOf_modNode_other (fun he => h (congrArg some he)) _ w

theorem apart_of_good (hg : Good w) : Apart w := by
  intro m w' n hm hn
  cases moved hg hm with
  | @ran f fb prog w₁ es out hf hs hr hup hrun =>
    refine apart_of_nodeOf ((runReady_ran hrun).other n fun he => hn ?_)
    rw [moveNode, hf, he]
    rfl
  | delivered => exact apart_of_nodeOf rfl
  | @fired i op hop =>
    refine apart_of_nodeOf (nodeOf_fault_other (fun he => hn ?_) w)
    rw [moveNode, hop]
    exact he
  | ticked => exact ⟨sameStore_advanceClock w n, vars_advanceClock w n⟩

/-! ## The contract -/

/-- Once nothing is pending, only a write to the key changes what is current. -/
theorem current_foldl {key : Key} (h : ∀ e ∈ j.writes, e.2 ≠ .pending)
    (hw : ∀ body bit, .wrote n key body bit ∉ evs) : (evs.foldl (Log.after n key) j).current = j.current := by
  have hsettle (f : Fate) : j.writes.map (Fate.settle f) = j.writes :=
    (List.map_congr_left fun e he => if_neg (h e he)).trans (List.map_id _)
  induction evs generalizing j with
  | nil => rfl
  | cons e evs ih =>
    have hsame : (j.after n key e).writes = j.writes := by
      cases e with
      | wrote n' key' body bit =>
        by_cases hn : n' = n
        · have hk : key' ≠ key := fun hk => hw body bit (by rw [hn, hk]; exact List.mem_cons_self)
          rw [Log.after, if_pos hn, if_neg hk, List.append_nil]
        · rw [Log.after, if_neg hn]
      | torn | corrupted | synced | crashed =>
        rw [Log.after]
        split_ifs <;> simp [hsettle]
      | read => rfl
    rw [List.foldl_cons, ih (hsame ▸ h) (fun body bit hm => hw body bit (List.mem_cons_of_mem _ hm)) (hsame ▸ hsettle),
      Log.current, hsame, Log.current]

/-- An fsync keeps what is current. -/
theorem current_synced (n : NodeId) (key : Key) (j : Log) :
    (j.after n key (.synced n)).current = j.current ∧ ∀ e ∈ (j.after n key (.synced n)).writes, e.2 ≠ .pending := by
  rw [Log.after, if_pos rfl]
  constructor
  · unfold Log.current
    simp only [← List.map_reverse, List.find?_map, Option.map_map]
    have hfind : (fun e : ByteString × Fate => decide (e.2 ≠ .lost)) ∘ Fate.settle .durable =
        fun e => decide (e.2 ≠ .lost) := by
      funext e
      obtain ⟨b, f⟩ := e
      cases f <;> rfl
    have hfst : (Prod.fst ∘ Fate.settle .durable : ByteString × Fate → ByteString) = Prod.fst := by
      funext e
      obtain ⟨b, f⟩ := e
      cases f <;> rfl
    rw [hfind, hfst]
  · exact not_pending_settle (by decide)

/-- What holds of the storage at the end of a run. -/
structure Contract (evs : List StoreEvent) (w : World P) : Prop where
  /-- every read of the run gave the latest write that was not lost -/
  answered : Answered evs
  /-- so does a read now -/
  current : ∀ n key, doStoreRead n key w = (logOf n key evs).current
  /-- what was readable before an fsync is so until it is overwritten -/
  synced : ∀ l₁ n l₂ key, evs = l₁ ++ .synced n :: l₂ → (∀ body bit, .wrote n key body bit ∉ l₂) →
    doStoreRead n key w = (logOf n key l₁).current
  /-- after a crash the latest durable write is readable -/
  crashed : ∀ l₁ n key, evs = l₁ ++ [.crashed n] → doStoreRead n key w = (logOf n key l₁).latest .durable
  /-- a crash loses the pending writes and no others -/
  tiers : ∀ n key, (nodeOf n w).volatile.lookup key = (logOf n key evs).latest .pending ∧
    (nodeOf n w).durable.lookup key = (logOf n key evs).latest .durable

theorem contract_of_stored (h : Stored evs w) (ha : Answered evs) :
    Contract evs w where
  answered := ha
  current := h.read
  synced := by
    rintro l₁ n l₂ key rfl hw
    obtain ⟨hcur, hnone⟩ := current_synced n key (logOf n key l₁)
    rw [h.read, ← hcur, logOf, List.foldl_append, List.foldl_cons]
    exact current_foldl hnone hw
  crashed := by
    rintro l₁ n key rfl
    have hs := h n key
    rw [logOf_snoc, Log.after, if_pos rfl] at hs
    obtain ⟨hdur, hpend⟩ := Log.latest_settle_lost (logOf n key l₁)
    show ((nodeOf n w).volatile.lookup key).or ((nodeOf n w).durable.lookup key) = _
    rw [hs.pending, hs.durable]
    exact (congrArg₂ Option.or hpend hdur)
  tiers := fun n key => ⟨(h n key).pending, (h n key).durable⟩

/-- Node 0 writes, syncs, writes again and reads. -/
def ledger : Scenario counterPlatform where
  nemesis := ⟨1, [.tear], 1⟩
  links := []
  nodes := [(0, .bind (.storeWrite ⟨[0]⟩ [1]) fun _ => .bind .fsync fun _ => .bind (.storeWrite ⟨[0]⟩ [2]) fun _ =>
    .bind (.storeRead ⟨[0]⟩) fun _ => .pure)]
  invariant := fun _ => true

def tearMoves : List Move := [.decide (.fireFault 0), .decide (.schedNext 0)]

/-- Node 0 writes twice and reads. -/
def rewrite : Scenario counterPlatform where
  nemesis := ⟨1, [.tear], 1⟩
  links := []
  nodes := [(0, .bind (.storeWrite ⟨[0]⟩ [1]) fun _ => .bind (.storeWrite ⟨[0]⟩ [2]) fun _ =>
    .bind (.storeRead ⟨[0]⟩) fun _ => .pure)]
  invariant := fun _ => true

end Wireform.Sim
