/-
  The partitions of a transaction, for every interleaving of sends with the lifecycle.

  A send is under way from its gate to the end of its registration (`Call.sending`).
  What it relies on is an addition that the coordinator has accepted (`Call.relies`).

  * `registering_of_next`: what a step of a thread does to the partitions and the flag;
  * `step_reg`: one step, with `Orderly` for what the code does not look after: a
    begin while a send is under way, a send while a begin clears, and an addition that
    is accepted after the end;
  * `registered_added`: over a run a registered partition was added to the transaction
    of its send, and the flag says whether something was;
  * `late_publish`: a registration that is published in the next transaction.
-/
import Wireform.Kafka.Transaction.Lifecycle

namespace Wireform.Kafka.Transaction

open Transition

/-! ## Calls -/

def Op.sends : Op → Bool
  | .send _ => true
  | .sendOffsets _ => true
  | _ => false

def Request.adds : Request → Bool
  | .addPartitions _ _ _ => true
  | .addOffsets _ _ _ => true
  | _ => false

attribute [grind =] Request.adds

/-- A send between its gate and the end of its registration. -/
def Call.sending (c : Call) : Bool :=
  match c.pc with
  | .readCoordinator | .readProducerId _ | .readProducerEpoch _ _ | .readStarted _ _ _ => c.op.sends
  | .gateProducerId st | .gateProducerEpoch st _ => st = .InTransaction
  | .retry r | .asked r _ | .rediscover r _ | .answered r _ => r.adds
  | .claim _ _ | .setStarted _ _ | .publish _ _ _ => true
  | _ => false

attribute [grind =] Call.sending

/-- What a thread has asked the coordinator for. -/
def Pc.request : Pc → Option Request
  | .retry r | .asked r _ | .rediscover r _ | .answered r _ => some r
  | _ => none

/-- A send asks for what it is about. -/
def Request.fits (op : Op) : Request → Bool
  | .addPartitions tp _ _ => op = .send tp
  | .addOffsets g _ _ => op = .sendOffsets g
  | _ => true

def Call.fitsAdd (c : Call) : Bool := c.pc.request.all fun r => r.fits c.op

/-- The partition, or the offsets, that must have been added. -/
def Call.relies (c : Call) : Option (Option TopicPartition) :=
  match c.pc with
  | .answered (.addPartitions tp _ _) (.ok _) => some (some tp)
  | .answered (.addOffsets _ _ _) (.ok _) => some none
  | .setStarted _ _ =>
    match c.op with
    | .send tp => some (some tp)
    | _ => some none
  | .publish _ _ none | .allocate _ _ | .done (.stamp (.ok _)) =>
    match c.op with
    | .send tp => some (some tp)
    | _ => none
  | _ => none

attribute [grind =] Call.relies

/-- An addition was accepted, and the flag is yet to be set. -/
def Call.toSet (c : Call) : Bool :=
  match c.pc with
  | .answered r (.ok _) => r.adds
  | .setStarted _ _ => true
  | _ => false

attribute [grind =] Call.toSet

/-- A begin that has moved the state and not yet cleared both. -/
def Call.clearing (c : Call) : Bool :=
  match c.pc with
  | .clearPartitions | .clearStarted => true
  | _ => false

attribute [grind =] Call.clearing

/-- It has cleared the partitions. -/
def Call.cleared (c : Call) : Bool :=
  match c.pc with
  | .clearStarted => true
  | _ => false

attribute [grind =] Call.cleared

/-! ## Steps -/

variable {w w' : World} {c c' : Call} {i : Input} {s s' : Sys} {e : Event}

/-- What the code does not look after: a begin while a send is under way, a send that
    passes the gate while a begin clears, and an addition accepted after the end. -/
def CallOrderly (s : Sys) (c : Call) (i : Input) : Prop :=
  match c.pc, i with
  | .move, _ => c.op = .begin → s.world.handle.txnState ≠ .InTransaction ∧
      (s.world.handle.txnState = .Ready → ∀ c' ∈ s.calls, c'.sending = false)
  | .start, _ => c.op.sends = true → s.world.handle.txnState = .InTransaction →
      ∀ c' ∈ s.calls, c'.clearing = false
  | .asked r _, .answer (.ok _) _ => r.adds = true → s.world.history.begun ∉ s.world.history.ended
  | _, _ => True

def Orderly (s : Sys) : Event → Prop
  | .step k i => ∀ c ∈ s.calls[k]?, CallOrderly s c i
  | _ => True

/-- What a step of a thread may do to the partitions and the flag. -/
inductive Registering (w : World) (c : Call) (w' : World) (c' : Call) : Prop
  | still (partitions : w'.handle.txnPartitions = w.handle.txnPartitions)
      (started : w'.handle.txnStarted = w.handle.txnStarted) (begun : w'.history.begun = w.history.begun)
      (added : w'.history.added = w.history.added)
      (sending : c'.sending = true → (c'.txn = c.txn ∧ c.sending = true) ∨
        (c'.txn = w.history.begun ∧ w.handle.txnState = .InTransaction ∧ c.pc = .start ∧ c.op.sends = true))
      (relies : ∀ x, c'.relies = some x → c'.txn = c.txn ∧
        (c.relies = some x ∨ (c.sending = true ∧ ∃ tp ∈ w.handle.txnPartitions, x = some tp)))
      (clearing : c'.clearing = c.clearing) (cleared : c'.cleared = true → c.cleared = true)
      (toSet : c.toSet = true → c'.toSet = true)
  | begin (ready : w.handle.txnState = .Ready) (op : c.op = .begin) (pc : c.pc = .move)
      (partitions : w'.handle.txnPartitions = w.handle.txnPartitions)
      (begun : w'.history.begun = w.history.begun + 1)
      (added : w'.history.added = w.history.added) (pc' : c'.pc = .clearPartitions)
  | clearPartitions (partitions : w'.handle.txnPartitions = ∅) (started : w'.handle.txnStarted = w.handle.txnStarted)
      (history : w'.history = w.history) (pc : c.pc = .clearPartitions) (pc' : c'.pc = .clearStarted)
  | clearStarted (partitions : w'.handle.txnPartitions = w.handle.txnPartitions)
      (started : w'.handle.txnStarted = false) (history : w'.history = w.history) (pc : c.pc = .clearStarted)
      (pc' : c'.pc = .done .ok)
  | accept (x : Option TopicPartition) (handle : w'.handle = w.handle) (begun : w'.history.begun = w.history.begun)
      (added : w'.history.added = w.history.added ++ [(w.history.begun, x)]) (was : c.sending = true)
      (txn : c'.txn = c.txn) (relies : c'.relies = some x) (toSet : c'.toSet = true) (clearing : c'.clearing = false)
  | setStarted (partitions : w'.handle.txnPartitions = w.handle.txnPartitions)
      (started : w'.handle.txnStarted = true) (history : w'.history = w.history) (was : c.sending = true)
      (txn : c'.txn = c.txn) (relied : ∃ x, c.relies = some x) (relies : ∀ x, c'.relies = some x → c.relies = some x)
      (clearing : c'.clearing = false)
  | publish (tp : TopicPartition) (partitions : w'.handle.txnPartitions = insert tp w.handle.txnPartitions)
      (started : w'.handle.txnStarted = w.handle.txnStarted) (history : w'.history = w.history)
      (was : c.sending = true) (txn : c'.txn = c.txn) (relied : c.relies = some (some tp))
      (relies : ∀ x, c'.relies = some x → c.relies = some x) (clearing : c'.clearing = false)
      (toSet : c.toSet = false)

/-- A call goes on, with the partitions and the flag as before. -/
theorem Registering.goOn {pc : Pc} (partitions : w'.handle.txnPartitions = w.handle.txnPartitions)
    (started : w'.handle.txnStarted = w.handle.txnStarted) (begun : w'.history.begun = w.history.begun)
    (added : w'.history.added = w.history.added)
    (sending : Call.sending { c with pc := pc } = true → c.sending = true)
    (relies : ∀ x, Call.relies { c with pc := pc } = some x → c.relies = some x)
    (clearing : Call.clearing { c with pc := pc } = c.clearing) (cleared : Call.cleared { c with pc := pc } = false)
    (toSet : c.toSet = true → Call.toSet { c with pc := pc } = true) :
    Registering w c w' { c with pc := pc } :=
  Registering.still partitions started begun added (fun h => Or.inl ⟨rfl, sending h⟩)
    (fun x h => ⟨rfl, Or.inl (relies x h)⟩) clearing
    (fun h => absurd h (by rw [cleared]; exact Bool.false_ne_true)) toSet

theorem Registering.ofPair {p : World × Call} (h : some p = some (w', c')) (hl : Registering w c p.1 p.2) :
    Registering w c w' c' := by
  cases h
  exact hl

variable {n : Nat} {op : Op}

/-- A call that is over, or about to move the state. -/
theorem Registering.over {pc pc' : Pc}
    (hpc' : pc' = .move ∨ (∃ err, pc' = .done (.err err)) ∨ pc' = .done .ok)
    (htoSet : Call.toSet ⟨op, n, pc⟩ = false) (hclear : Call.clearing ⟨op, n, pc⟩ = false) :
    Registering w ⟨op, n, pc⟩ w ⟨op, n, pc'⟩ := by
  refine Registering.goOn (c := ⟨op, n, pc⟩) rfl rfl rfl rfl ?_ ?_ ?_ ?_ ?_
  · rcases hpc' with rfl | ⟨err, rfl⟩ | rfl <;> exact fun h => absurd h Bool.false_ne_true
  · rcases hpc' with rfl | ⟨err, rfl⟩ | rfl <;> exact fun x h => by cases h
  · rw [hclear]
    rcases hpc' with rfl | ⟨err, rfl⟩ | rfl <;> rfl
  · rcases hpc' with rfl | ⟨err, rfl⟩ | rfl <;> rfl
  · exact fun h => absurd (htoSet.symm.trans h) Bool.false_ne_true

theorem registering_enter : Registering w ⟨op, n, .start⟩ w (enter w ⟨op, n, .start⟩) := by
  cases op with
  | begin => exact Registering.over ((beginFrom_cases w.handle.txnState).imp id Or.inl) rfl rfl
  | commit => exact Registering.goOn (c := ⟨_, n, _⟩) rfl rfl rfl rfl id (fun _ h => h) rfl rfl id
  | abort => exact Registering.over (abortFrom_cases w.handle.txnState) rfl rfl
  | send tp =>
    refine Registering.still rfl rfl rfl rfl (fun h => Or.inr ⟨rfl, of_decide_eq_true h, rfl, rfl⟩) ?_ rfl id id
    exact fun x h => by cases h
  | sendOffsets group =>
    cases hst : w.handle.txnState with
    | InTransaction =>
      have hpc : sendOffsetsFrom w.handle.txnState = .readCoordinator := by rw [hst]; rfl
      refine Registering.still rfl rfl rfl rfl (fun _ => Or.inr ⟨rfl, hst, rfl, rfl⟩) ?_ ?_ ?_ ?_
      all_goals
        dsimp only [enter]
        rw [hpc]
        simp [Call.relies, Call.clearing, Call.cleared, Call.toSet]
    | _ =>
      have hpc : ∃ err, sendOffsetsFrom w.handle.txnState = .done (.err err) := by rw [hst]; exact ⟨_, rfl⟩
      obtain ⟨err, hpc⟩ := hpc
      refine Registering.still rfl rfl rfl rfl ?_ ?_ ?_ ?_ ?_
      all_goals
        dsimp only [enter]
        rw [hpc]
        simp [Call.sending, Call.relies, Call.clearing, Call.cleared, Call.toSet, Result.err]

theorem registering_moveBegin (hne : w.handle.txnState ≠ .InTransaction) :
    Registering w ⟨.begin, n, .move⟩ (moveBegin w ⟨.begin, n, .move⟩).1 (moveBegin w ⟨.begin, n, .move⟩).2 := by
  unfold moveBegin
  by_cases hvalid : isValidTransition w.handle.txnState .InTransaction = true
  · rw [if_pos hvalid, if_neg hne]
    exact Registering.begin (isValidTransition_inTransaction hvalid hne) rfl rfl rfl rfl rfl rfl
  · rw [if_neg hvalid]
    exact Registering.over (Or.inr (Or.inl ⟨_, rfl⟩)) rfl rfl

theorem registering_moveEnd {st : TransactionState} (hop : op.sends = false) :
    Registering w ⟨op, n, .move⟩ (moveEnd w ⟨op, n, .move⟩ st).1 (moveEnd w ⟨op, n, .move⟩ st).2 := by
  unfold moveEnd
  by_cases hvalid : isValidTransition w.handle.txnState st = true
  · rw [if_pos hvalid]
    refine Registering.still rfl rfl rfl rfl ?_ ?_ rfl id id
    · exact fun h => absurd (hop.symm.trans h) Bool.false_ne_true
    · exact fun x h => by cases h
  · rw [if_neg hvalid]
    exact Registering.over (Or.inr (Or.inl ⟨_, rfl⟩)) rfl rfl

theorem registering_haveRead {pc : Pc} {started : Bool} {coord : Option TransactionCoordinator}
    {pid epoch : Option Int} (hsending : op.sends = true → Call.sending ⟨op, n, pc⟩ = true)
    (htoSet : Call.toSet ⟨op, n, pc⟩ = false) (hclear : Call.clearing ⟨op, n, pc⟩ = false) :
    Registering w ⟨op, n, pc⟩ w ⟨op, n, haveRead ⟨op, n, pc⟩ started coord pid epoch⟩ := by
  have htoSet' : ∀ {c : Call}, Call.toSet ⟨op, n, pc⟩ = true → c.toSet = true := fun h =>
    absurd (htoSet.symm.trans h) Bool.false_ne_true
  rcases haveRead_cases ⟨op, n, pc⟩ started coord pid epoch with ⟨-, h | ⟨b, p, e, h⟩⟩ | ⟨g, p, e, hop, h⟩ | ⟨err, h⟩
  · rw [h]
    refine Registering.goOn (c := ⟨op, n, pc⟩) rfl rfl rfl rfl ?_ ?_ hclear.symm rfl htoSet'
    all_goals simp [Call.sending, Call.relies]
  · rw [h]
    refine Registering.goOn (c := ⟨op, n, pc⟩) rfl rfl rfl rfl ?_ ?_ hclear.symm rfl htoSet'
    all_goals simp [Call.sending, Call.relies, Request.adds]
  · rw [h]
    have hsends : op.sends = true := by
      rw [show op = .sendOffsets g from hop]
      rfl
    refine Registering.goOn (c := ⟨op, n, pc⟩) rfl rfl rfl rfl (fun _ => hsending hsends) ?_ hclear.symm rfl htoSet'
    simp [Call.relies]
  · rw [h]
    exact Registering.over (Or.inr (Or.inl ⟨_, rfl⟩)) htoSet hclear

theorem registering_onAnswer {r : Request} {coord : TransactionCoordinator} {x : Answer} {late : Bool}
    (hend : r.adds = true → (∃ ids, x = .ok ids) → w.history.begun ∉ w.history.ended) :
    Registering w ⟨op, n, .asked r coord⟩ (onAnswer w r coord x late).1 ⟨op, n, (onAnswer w r coord x late).2⟩ := by
  cases x with
  | ok ids =>
    cases r with
    | endTxn b p e | initProducerId p e =>
      refine Registering.goOn (c := ⟨op, n, _⟩) rfl rfl rfl rfl id ?_ rfl rfl ?_
      all_goals simp [Call.relies, Call.toSet, onAnswer]
    | addPartitions tp p e | addOffsets g p e =>
      have hopen := hend rfl ⟨ids, rfl⟩
      refine Registering.accept _ rfl ?_ ?_ rfl rfl rfl rfl rfl
      all_goals
        dsimp only [onAnswer, accept]
        rw [if_neg hopen]
  | error err =>
    rw [onAnswer_error_world]
    rcases onAnswer_error w r coord err late with h | h | h
    all_goals
      rw [h]
      refine Registering.goOn (c := ⟨op, n, _⟩) rfl rfl rfl rfl id ?_ rfl rfl ?_
      all_goals cases r <;> simp [Call.relies, Call.toSet]

theorem registering_afterAnswer {r : Request} {x : Answer}
    (hfit : Call.fitsAdd ⟨op, n, .answered r x⟩ = true) :
    Registering w ⟨op, n, .answered r x⟩ w ⟨op, n, afterAnswer w r x⟩ := by
  cases r with
  | endTxn b p e =>
    refine Registering.goOn (c := ⟨op, n, _⟩) rfl rfl rfl rfl ?_ ?_ ?_ ?_ ?_
    all_goals
      cases b with
      | true => cases x <;> simp [Call.sending, Call.relies, Call.clearing, Call.cleared, Call.toSet, afterAnswer, Request.adds]
      | false =>
        cases x with
        | ok ids =>
          unfold afterAnswer
          dsimp only
          split_ifs
          all_goals simp [Call.sending, Call.relies, Call.clearing, Call.cleared, Call.toSet, Request.adds]
        | error err => simp [Call.sending, Call.relies, Call.clearing, Call.cleared, Call.toSet, afterAnswer]
  | initProducerId p e =>
    refine Registering.goOn (c := ⟨op, n, _⟩) rfl rfl rfl rfl ?_ ?_ ?_ ?_ ?_
    all_goals
      cases x <;> simp [Call.sending, Call.relies, Call.clearing, Call.cleared, Call.toSet, afterAnswer, Request.adds]
  | addPartitions tp p e =>
    obtain rfl : op = .send tp := of_decide_eq_true hfit
    cases x with
    | ok ids => exact Registering.goOn (c := ⟨_, n, _⟩) rfl rfl rfl rfl id (fun _ h => h) rfl rfl id
    | error err =>
      refine Registering.goOn (c := ⟨_, n, _⟩) rfl rfl rfl rfl (fun _ => rfl) ?_ rfl rfl ?_
      all_goals simp [Call.relies, Call.toSet, afterAnswer]
  | addOffsets g p e =>
    obtain rfl : op = .sendOffsets g := of_decide_eq_true hfit
    cases x with
    | ok ids => exact Registering.goOn (c := ⟨_, n, _⟩) rfl rfl rfl rfl id (fun _ h => h) rfl rfl id
    | error err => exact Registering.over (Or.inr (Or.inl ⟨_, rfl⟩)) rfl rfl

/-- A send passes the gate in a transaction only. -/
theorem gate_ok {st : TransactionState} {mPid mEpoch : Option Int} {ids : Int × Int}
    (h : producerTxnGate st mPid mEpoch = .ok ids) : st = .InTransaction := by
  cases st with
  | InTransaction => rfl
  | _ => cases h

/-- **What a step of a thread does to the partitions and the flag.** -/
theorem registering_of_next (hfit : c.fitsAdd = true) (hf : c.fits = true) (hg : CallOrderly s c i)
    (h : next s.world c i = some (w', c')) : Registering s.world c w' c' := by
  obtain ⟨op, n, pc⟩ := c
  cases i with
  | go =>
    cases pc with
    | start =>
      cases h
      exact registering_enter
    | readSendFailed st =>
      cases h
      exact Registering.over (commitFrom_cases s.world.handle.txnEpochBumpNeeded st) rfl rfl
    | move =>
      cases op with
      | begin => exact Registering.ofPair h (registering_moveBegin (hg rfl).1)
      | commit | abort => exact Registering.ofPair h (registering_moveEnd rfl)
      | _ => cases h
    | clearPartitions =>
      cases h
      exact Registering.clearPartitions rfl rfl rfl rfl rfl
    | clearStarted =>
      cases h
      exact Registering.clearStarted rfl rfl rfl rfl rfl
    | readCoordinator | readProducerId coord =>
      cases h
      exact Registering.goOn (c := ⟨op, n, _⟩) rfl rfl rfl rfl id (fun _ h => by cases h) rfl rfl id
    | readProducerEpoch coord pid =>
      cases op with
      | sendOffsets group =>
        cases h
        exact registering_haveRead id rfl rfl
      | begin | commit | abort | send tp =>
        cases h
        exact Registering.goOn (c := ⟨_, n, _⟩) rfl rfl rfl rfl id (fun _ h => by cases h) rfl rfl id
    | readStarted coord pid epoch =>
      cases h
      exact registering_haveRead id rfl rfl
    | retry r =>
      cases h
      refine Registering.goOn (c := ⟨op, n, _⟩) rfl rfl rfl rfl ?_ ?_ ?_ ?_ ?_
      all_goals
        cases s.world.handle.txnCoordinator
        all_goals cases r <;> simp [Call.sending, Call.relies, Call.clearing, Call.cleared, Call.toSet, Request.adds]
    | answered r x =>
      cases h
      exact registering_afterAnswer hfit
    | bumpProducerId pid epoch | bumpProducerEpoch epoch | bumped | failEnd err | writeAborted | writeReady =>
      cases h
      refine Registering.goOn (c := ⟨op, n, _⟩) rfl rfl rfl rfl ?_ (fun _ h => by cases h) rfl rfl ?_
      · exact fun h => absurd h Bool.false_ne_true
      · exact fun h => absurd h Bool.false_ne_true
    | gateProducerId st =>
      cases h
      exact Registering.goOn (c := ⟨op, n, _⟩) rfl rfl rfl rfl id (fun _ h => by cases h) rfl rfl id
    | gateProducerEpoch st pid =>
      cases h
      cases hgate : producerTxnGate st pid s.world.handle.txnProducerEpoch with
      | ok ids =>
        refine Registering.goOn (c := ⟨op, n, _⟩) rfl rfl rfl rfl ?_ (fun _ h => by cases h) rfl rfl id
        exact fun _ => decide_eq_true (gate_ok hgate)
      | error err =>
        refine Registering.goOn (c := ⟨op, n, _⟩) rfl rfl rfl rfl ?_ (fun _ h => by cases h) rfl rfl id
        exact fun h => absurd h Bool.false_ne_true
    | claim pid epoch =>
      cases op with
      | send tp =>
        obtain ⟨⟨hd, pc⟩, hclaim, hs⟩ := Option.map_eq_some_iff.1 h
        cases hs
        unfold claimPartition at hclaim
        split_ifs at hclaim with hin
        · cases hclaim
          refine Registering.still rfl rfl rfl rfl (fun h => absurd h Bool.false_ne_true) ?_ rfl id id
          exact fun x hx => ⟨rfl, Or.inr ⟨rfl, tp, hin, (Option.some.inj hx).symm⟩⟩
        · cases hclaim
          exact Registering.goOn (c := ⟨_, n, _⟩) rfl rfl rfl rfl id (fun _ h => by cases h) rfl rfl id
      | _ => cases h
    | setStarted pid epoch =>
      cases h
      cases op with
      | send tp => exact Registering.setStarted rfl rfl rfl rfl rfl ⟨_, rfl⟩ (fun _ h => h) rfl
      | _ => exact Registering.setStarted rfl rfl rfl rfl rfl ⟨_, rfl⟩ (fun _ h => by cases h) rfl
    | publish pid epoch failed =>
      cases op with
      | send tp =>
        cases h
        cases failed with
        | none => exact Registering.publish tp rfl rfl rfl rfl rfl rfl (fun _ h => h) rfl rfl
        | some err =>
          refine Registering.goOn (c := ⟨_, n, _⟩) rfl rfl rfl rfl ?_ (fun _ h => by cases h) rfl rfl id
          exact fun h => absurd h Bool.false_ne_true
      | _ => cases h
    | allocate pid epoch =>
      cases op with
      | send tp =>
        cases h
        exact Registering.goOn (c := ⟨_, n, _⟩) rfl rfl rfl rfl id (fun _ h => h) rfl rfl id
      | _ => cases h
    | asked r coord | rediscover r coord | commitOffsets | done r => cases h
  | answer x late =>
    cases pc with
    | asked r coord =>
      refine Registering.ofPair h (registering_onAnswer fun hadds hok => ?_)
      obtain ⟨ids, rfl⟩ := hok
      exact hg hadds
    | commitOffsets =>
      cases h
      cases x with
      | ok ids =>
        refine Registering.over ?_ rfl rfl
        exact Or.inr (Or.inr rfl)
      | error err => exact Registering.over (Or.inr (Or.inl ⟨_, rfl⟩)) rfl rfl
    | _ => cases h
  | found coord' =>
    cases pc with
    | rediscover r coord =>
      cases coord' with
      | none | some new =>
        cases h
        exact Registering.goOn (c := ⟨op, n, _⟩) rfl rfl rfl rfl id (fun _ h => by cases h) rfl rfl id
    | _ => cases h

theorem fitsAdd_of_next (hfit : c.fitsAdd = true) (h : next w c i = some (w', c')) : c'.fitsAdd = true := by
  obtain ⟨op, n, pc⟩ := c
  have hread : ∀ {pc : Pc} (started : Bool) (coord : Option TransactionCoordinator) (pid epoch : Option Int),
      Call.fitsAdd ⟨op, n, haveRead ⟨op, n, pc⟩ started coord pid epoch⟩ = true := by
    intro pc started coord pid epoch
    rcases haveRead_cases ⟨op, n, pc⟩ started coord pid epoch with ⟨-, h | ⟨b, p, e, h⟩⟩ | ⟨g, p, e, hop, h⟩ | ⟨err, h⟩
    · rw [h]
      rfl
    · rw [h]
      rfl
    · rw [h]
      exact decide_eq_true hop
    · rw [h]
      rfl
  cases i with
  | go =>
    cases pc with
    | start =>
      cases h
      cases op with
      | begin => rcases beginFrom_cases w.handle.txnState with h | ⟨err, h⟩ <;> simp [enter, h, Call.fitsAdd, Pc.request]
      | commit => rfl
      | abort =>
        rcases abortFrom_cases w.handle.txnState with h | ⟨err, h⟩ | h <;> simp [enter, h, Call.fitsAdd, Pc.request]
      | send tp => rfl
      | sendOffsets group =>
        rcases sendOffsetsFrom_cases w.handle.txnState with h | ⟨err, h⟩ <;> simp [enter, h, Call.fitsAdd, Pc.request]
    | readSendFailed st =>
      cases h
      rcases commitFrom_cases w.handle.txnEpochBumpNeeded st with h | ⟨err, h⟩ | h <;>
        simp [h, Call.fitsAdd, Pc.request]
    | move =>
      cases op with
      | begin =>
        rw [← show _ = c' from congrArg Prod.snd (Option.some.inj h)]
        unfold moveBegin
        split_ifs <;> rfl
      | commit | abort =>
        rw [← show _ = c' from congrArg Prod.snd (Option.some.inj h)]
        unfold moveEnd
        split_ifs <;> rfl
      | _ => cases h
    | readProducerEpoch coord pid =>
      cases op with
      | sendOffsets group =>
        cases h
        exact hread _ _ _ _
      | _ =>
        cases h
        rfl
    | readStarted coord pid epoch =>
      cases h
      exact hread _ _ _ _
    | retry r =>
      cases h
      cases w.handle.txnCoordinator with
      | none => exact hfit
      | some coord => exact hfit
    | answered r x =>
      cases h
      cases r with
      | endTxn b p e =>
        cases b with
        | true => cases x <;> rfl
        | false =>
          cases x with
          | ok ids =>
            unfold afterAnswer
            dsimp only
            split_ifs <;> rfl
          | error err => rfl
      | _ => cases x <;> rfl
    | gateProducerEpoch st pid =>
      cases h
      cases producerTxnGate st pid w.handle.txnProducerEpoch with
      | ok ids => rfl
      | error err => rfl
    | claim pid epoch =>
      cases op with
      | send tp =>
        obtain ⟨⟨hd, pc⟩, hclaim, hs⟩ := Option.map_eq_some_iff.1 h
        cases hs
        rcases (claimPartition_cases hclaim).2 with rfl | rfl
        · rfl
        · exact decide_eq_true rfl
      | _ => cases h
    | setStarted pid epoch =>
      cases h
      cases op <;> rfl
    | publish pid epoch failed =>
      cases op with
      | send tp =>
        cases h
        cases failed <;> rfl
      | _ => cases h
    | allocate pid epoch =>
      cases op with
      | send tp =>
        cases h
        rfl
      | _ => cases h
    | asked r coord | rediscover r coord | commitOffsets | done r => cases h
    | _ =>
      cases h
      rfl
  | answer x late =>
    cases pc with
    | asked r coord =>
      have hs : c' = ⟨op, n, (onAnswer w r coord x late).2⟩ := (congrArg Prod.snd (Option.some.inj h)).symm
      rw [hs]
      cases x with
      | ok ids => exact hfit
      | error err =>
        rcases onAnswer_error w r coord err late with h | h | h
        all_goals
          rw [h]
          exact hfit
    | commitOffsets =>
      cases h
      cases x <;> rfl
    | _ => cases h
  | found coord' =>
    cases pc with
    | rediscover r coord =>
      cases coord' with
      | none | some new =>
        cases h
        exact hfit
    | _ => cases h

/-! ## The invariant -/

/-- What a call is: a begin that clears, a send that is under way, or neither. -/
structure Reg (s : Sys) : Prop where
  fits : ∀ c ∈ s.calls, c.fits = true
  fitsAdd : ∀ c ∈ s.calls, c.fitsAdd = true
  sending : ∀ c ∈ s.calls, c.sending = true → c.txn = s.world.history.begun
  alone : ∀ c ∈ s.calls, ∀ c' ∈ s.calls, c.clearing = true → c'.sending = false
  past : ∀ e ∈ s.world.history.added, e.1 ≤ s.world.history.begun
  fresh : ∀ c ∈ s.calls, c.clearing = true → ∀ x, (s.world.history.begun, x) ∉ s.world.history.added
  cleared : ∀ c ∈ s.calls, c.cleared = true → s.world.handle.txnPartitions = ∅
  partitions : (∀ c ∈ s.calls, c.clearing = false) → ∀ tp ∈ s.world.handle.txnPartitions,
    (s.world.history.begun, some tp) ∈ s.world.history.added
  started : (∀ c ∈ s.calls, c.clearing = false) → s.world.handle.txnStarted = true →
    ∃ x, (s.world.history.begun, x) ∈ s.world.history.added
  toSet : ∀ x, (s.world.history.begun, x) ∈ s.world.history.added →
    s.world.handle.txnStarted = true ∨ ∃ c ∈ s.calls, c.toSet = true
  relies : ∀ c ∈ s.calls, ∀ x, c.relies = some x → (c.txn, x) ∈ s.world.history.added

theorem reg_init (st : TransactionState) (coord : Option TransactionCoordinator) (pid epoch : Option Int) :
    Reg (Sys.init st coord pid epoch) where
  fits _ hc := absurd hc List.not_mem_nil
  fitsAdd _ hc := absurd hc List.not_mem_nil
  sending _ hc := absurd hc List.not_mem_nil
  alone _ hc := absurd hc List.not_mem_nil
  past _ he := absurd he List.not_mem_nil
  fresh _ hc := absurd hc List.not_mem_nil
  cleared _ hc := absurd hc List.not_mem_nil
  partitions _ _ htp := absurd htp (Finset.notMem_empty _)
  started _ h := absurd h Bool.false_ne_true
  toSet _ hx := absurd hx List.not_mem_nil
  relies _ hc := absurd hc List.not_mem_nil

theorem clearing_of_cleared {c : Call} (h : c.cleared = true) : c.clearing = true := by
  obtain ⟨op, n, pc⟩ := c
  cases pc with
  | clearStarted => rfl
  | _ => cases h

/-- The call is the new one, or one of the others. -/
theorem mem_set_cases {l : List Call} {k : Nat} {x : Call} (h : x ∈ l.set k c') : x = c' ∨ x ∈ l :=
  (List.mem_or_eq_of_mem_set h).symm

theorem mem_set_self {l : List Call} {k : Nat} (hc : l[k]? = some c) : c' ∈ l.set k c' := by
  obtain ⟨hk, -⟩ := List.getElem?_eq_some_iff.1 hc
  exact List.mem_set hk c'

/-- A call that is to set the flag still is, unless it is the one that goes on. -/
theorem toSet_mem_set {l : List Call} {k : Nat} {y : Call} (hc : l[k]? = some c) (hy : y ∈ l) (hyset : y.toSet = true)
    (toSet : c.toSet = true → c'.toSet = true) : ∃ x ∈ l.set k c', x.toSet = true := by
  obtain ⟨j, hj⟩ := List.mem_iff_getElem?.1 hy
  by_cases hjk : j = k
  · subst hjk
    rw [hc] at hj
    cases hj
    exact ⟨c', mem_set_self hc, toSet hyset⟩
  · exact ⟨y, List.mem_iff_getElem?.2 ⟨j, by rw [List.getElem?_set_ne (Ne.symm hjk)]; exact hj⟩, hyset⟩

section
variable {k : Nat} (h : Reg s) (hc : s.calls[k]? = some c) (hf : c'.fits = true) (hfit : c'.fitsAdd = true)
include h hc hf hfit

theorem Reg.still (partitions : w'.handle.txnPartitions = s.world.handle.txnPartitions)
    (started : w'.handle.txnStarted = s.world.handle.txnStarted) (begun : w'.history.begun = s.world.history.begun)
    (added : w'.history.added = s.world.history.added)
    (sending : c'.sending = true → (c'.txn = c.txn ∧ c.sending = true) ∨
      (c'.txn = s.world.history.begun ∧ ∀ x ∈ s.calls, x.clearing = false))
    (relies : ∀ x, c'.relies = some x → c'.txn = c.txn ∧
      (c.relies = some x ∨ (c.sending = true ∧ ∃ tp ∈ s.world.handle.txnPartitions, x = some tp)))
    (clearing : c'.clearing = c.clearing) (cleared : c'.cleared = true → c.cleared = true)
    (toSet : c.toSet = true → c'.toSet = true) : Reg ⟨w', s.calls.set k c'⟩ := by
  have hmem := List.mem_of_getElem? hc
  have hother : ∀ {x : Call}, x ∈ s.calls.set k c' → x = c' ∨ x ∈ s.calls := mem_set_cases
  -- whether a begin clears is as before
  have hnone : (∀ x ∈ s.calls.set k c', x.clearing = false) → ∀ x ∈ s.calls, x.clearing = false := by
    intro hall x hx
    obtain ⟨j, hj⟩ := List.mem_iff_getElem?.1 hx
    by_cases hjk : j = k
    · subst hjk
      rw [hc] at hj
      cases hj
      rw [← clearing]
      exact hall c' (mem_set_self hc)
    · exact hall x (List.mem_iff_getElem?.2 ⟨j, by rw [List.getElem?_set_ne (Ne.symm hjk)]; exact hj⟩)
  have hsend : c'.sending = true → ∀ x ∈ s.calls, x.clearing = false := by
    intro hs' x hx
    rcases sending hs' with ⟨-, hs'⟩ | ⟨-, hall⟩
    · by_contra hx'
      have hfalse := h.alone x hx c hmem (Bool.eq_true_of_not_eq_false hx')
      rw [hs'] at hfalse
      cases hfalse
    · exact hall x hx
  refine ⟨mem_set h.fits hf, mem_set h.fitsAdd hfit, ?_, ?_, ?_, ?_, ?_, ?_, ?_, ?_, ?_⟩
  · dsimp only
    rw [begun]
    refine mem_set h.sending fun hs' => ?_
    rcases sending hs' with ⟨htxn, hs'⟩ | ⟨htxn, -⟩
    · exact htxn.trans (h.sending c hmem hs')
    · exact htxn
  · intro x hx y hy hclear
    by_contra hy'
    have hy' := Bool.eq_true_of_not_eq_false hy'
    have hxold : ∃ z ∈ s.calls, z.clearing = true := by
      rcases hother hx with rfl | hx
      · exact ⟨c, hmem, clearing ▸ hclear⟩
      · exact ⟨x, hx, hclear⟩
    obtain ⟨z, hz, hzclear⟩ := hxold
    rcases hother hy with rfl | hy
    · rw [hsend hy' z hz] at hzclear
      cases hzclear
    · have hfalse := h.alone z hz y hy hzclear
      rw [hy'] at hfalse
      cases hfalse
  · rw [added, begun]
    exact h.past
  · dsimp only
    rw [added, begun]
    exact mem_set h.fresh fun hclear => h.fresh c hmem (clearing ▸ hclear)
  · dsimp only
    rw [partitions]
    exact mem_set h.cleared fun hcl => h.cleared c hmem (cleared hcl)
  · dsimp only
    rw [partitions, begun, added]
    exact fun hall => h.partitions (hnone hall)
  · dsimp only
    rw [started, begun, added]
    exact fun hall => h.started (hnone hall)
  · dsimp only
    rw [started, begun, added]
    intro x hx
    refine (h.toSet x hx).imp id ?_
    rintro ⟨y, hy, hyset⟩
    exact toSet_mem_set hc hy hyset toSet
  · dsimp only
    rw [added]
    refine mem_set h.relies fun x hx => ?_
    obtain ⟨htxn, hx | ⟨hs, tp, htp, rfl⟩⟩ := relies x hx
    · rw [htxn]
      exact h.relies c hmem x hx
    · rw [htxn, h.sending c hmem hs]
      refine h.partitions (fun y hy => ?_) tp htp
      by_contra hy'
      have hfalse := h.alone y hy c hmem (Bool.eq_true_of_not_eq_false hy')
      rw [hs] at hfalse
      cases hfalse

/-- While a begin clears nothing was added yet. -/
theorem Reg.clears (hsends : ∀ x ∈ s.calls, x.sending = false) (hsend : c'.sending = false)
    (hclear : c'.clearing = true) (hrelies : c'.relies = none) (hbegun : s.world.history.begun ≤ w'.history.begun)
    (hfresh : ∀ x, (w'.history.begun, x) ∉ s.world.history.added) (added : w'.history.added = s.world.history.added)
    (hcleared : ∀ x ∈ s.calls.set k c', x.cleared = true → w'.handle.txnPartitions = ∅) :
    Reg ⟨w', s.calls.set k c'⟩ := by
  have hsome : ¬ ∀ x ∈ s.calls.set k c', x.clearing = false := by
    intro hall
    rw [hall c' (mem_set_self hc)] at hclear
    cases hclear
  have hnot : ∀ x ∈ s.calls.set k c', x.sending = false := mem_set hsends hsend
  refine ⟨mem_set h.fits hf, mem_set h.fitsAdd hfit, ?_, fun _ _ y hy _ => hnot y hy, ?_, ?_, hcleared,
    fun hall => absurd hall hsome, fun hall => absurd hall hsome, ?_, ?_⟩
  · intro x hx hs'
    rw [hnot x hx] at hs'
    cases hs'
  · rw [added]
    exact fun e he => (h.past e he).trans hbegun
  · dsimp only
    rw [added]
    exact fun _ _ _ => hfresh
  · dsimp only
    rw [added]
    exact fun x hx => absurd hx (hfresh x)
  · dsimp only
    rw [added]
    refine mem_set h.relies fun x hx => ?_
    rw [hrelies] at hx
    cases hx

theorem Reg.begin (hsends : ∀ x ∈ s.calls, x.sending = false)
    (partitions : w'.handle.txnPartitions = s.world.handle.txnPartitions)
    (begun : w'.history.begun = s.world.history.begun + 1) (added : w'.history.added = s.world.history.added)
    (hpc' : c'.pc = .clearPartitions) : Reg ⟨w', s.calls.set k c'⟩ := by
  obtain ⟨op', n', pc'⟩ := c'
  cases hpc'
  refine h.clears hc hf hfit hsends rfl rfl rfl (by rw [begun]; exact Nat.le_succ _) ?_ added ?_
  · rw [begun]
    exact fun x hx => absurd (h.past _ hx) (Nat.not_succ_le_self _)
  · rw [partitions]
    exact mem_set h.cleared fun hcl => absurd hcl Bool.false_ne_true

theorem Reg.clearPartitions (partitions : w'.handle.txnPartitions = ∅) (history : w'.history = s.world.history)
    (hpc : c.pc = .clearPartitions) (hpc' : c'.pc = .clearStarted) : Reg ⟨w', s.calls.set k c'⟩ := by
  have hmem := List.mem_of_getElem? hc
  obtain ⟨op, n, pc⟩ := c
  obtain ⟨op', n', pc'⟩ := c'
  cases hpc
  cases hpc'
  refine h.clears hc hf hfit (fun x hx => h.alone _ hmem x hx rfl) rfl rfl rfl ?_ ?_ ?_ fun _ _ _ => partitions
  · rw [history]
  · rw [history]
    exact h.fresh _ hmem rfl
  · rw [history]

/-- A begin clears the flag. -/
theorem Reg.clearStarted (partitions : w'.handle.txnPartitions = s.world.handle.txnPartitions)
    (started : w'.handle.txnStarted = false) (history : w'.history = s.world.history) (hpc : c.pc = .clearStarted)
    (hpc' : c'.pc = .done .ok) : Reg ⟨w', s.calls.set k c'⟩ := by
  have hmem := List.mem_of_getElem? hc
  obtain ⟨op, n, pc⟩ := c
  obtain ⟨op', n', pc'⟩ := c'
  cases hpc
  cases hpc'
  have hempty := h.cleared _ hmem rfl
  have hfresh := h.fresh _ hmem rfl
  have hnot : ∀ x ∈ s.calls.set k ⟨op', n', .done .ok⟩, x.sending = false :=
    mem_set (fun x hx => h.alone _ hmem x hx rfl) rfl
  refine ⟨mem_set h.fits hf, mem_set h.fitsAdd hfit, ?_, fun _ _ y hy _ => hnot y hy, ?_, ?_, ?_, ?_, ?_, ?_, ?_⟩
  · intro x hx hs'
    rw [hnot x hx] at hs'
    cases hs'
  · rw [history]
    exact h.past
  · dsimp only
    rw [history]
    exact fun _ _ _ => hfresh
  · dsimp only
    rw [partitions]
    exact fun _ _ _ => hempty
  · dsimp only
    rw [partitions, hempty]
    exact fun _ tp htp => absurd htp (Finset.notMem_empty tp)
  · intro _ hst
    rw [started] at hst
    cases hst
  · dsimp only
    rw [history]
    exact fun x hx => absurd hx (hfresh x)
  · dsimp only
    rw [history]
    exact mem_set h.relies fun x hx => by cases hx

omit hc hf hfit in
/-- While a send is under way no begin clears. -/
theorem Reg.not_clearing (hmem : c ∈ s.calls) (hs : c.sending = true) : ∀ x ∈ s.calls, x.clearing = false := by
  intro x hx
  by_contra hx'
  have hfalse := h.alone x hx c hmem (Bool.eq_true_of_not_eq_false hx')
  rw [hs] at hfalse
  cases hfalse

/-- A send goes on while no begin clears. -/
theorem Reg.sends (was : c.sending = true) (txn : c'.txn = c.txn) (hclear : c'.clearing = false)
    (begun : w'.history.begun = s.world.history.begun)
    (hsub : ∀ e ∈ s.world.history.added, e ∈ w'.history.added)
    (hnew : ∀ e ∈ w'.history.added, e ∈ s.world.history.added ∨ e.1 = s.world.history.begun)
    (partitions : ∀ tp ∈ w'.handle.txnPartitions, tp ∈ s.world.handle.txnPartitions ∨
      (s.world.history.begun, some tp) ∈ w'.history.added)
    (started : w'.handle.txnStarted = true → s.world.handle.txnStarted = true ∨
      ∃ x, (s.world.history.begun, x) ∈ w'.history.added)
    (toSet : ∀ x, (s.world.history.begun, x) ∈ w'.history.added → w'.handle.txnStarted = true ∨
      ∃ y ∈ s.calls.set k c', y.toSet = true)
    (relies : ∀ x, c'.relies = some x → (s.world.history.begun, x) ∈ w'.history.added) :
    Reg ⟨w', s.calls.set k c'⟩ := by
  have hmem := List.mem_of_getElem? hc
  have hnone := h.not_clearing hmem was
  have htxn : c'.txn = s.world.history.begun := txn.trans (h.sending c hmem was)
  have hnone' : ∀ x ∈ s.calls.set k c', x.clearing = false := mem_set hnone hclear
  have hclears : ∀ {P : Prop} {x : Call}, x ∈ s.calls.set k c' → x.clearing = true → P := fun hx hx' =>
    absurd ((hnone' _ hx).symm.trans hx') Bool.false_ne_true
  refine ⟨mem_set h.fits hf, mem_set h.fitsAdd hfit, ?_, fun x hx _ _ hx' => hclears hx hx', ?_,
    fun x hx hx' => hclears hx hx', fun x hx hx' => hclears hx (clearing_of_cleared hx'), ?_, ?_, ?_, ?_⟩
  · dsimp only
    rw [begun]
    exact mem_set h.sending fun _ => htxn
  · rw [begun]
    intro e he
    rcases hnew e he with he | he
    · exact h.past e he
    · exact he.le
  · dsimp only
    rw [begun]
    intro _ tp htp
    rcases partitions tp htp with htp | hadded
    · exact hsub _ (h.partitions hnone tp htp)
    · exact hadded
  · dsimp only
    rw [begun]
    intro _ hst
    rcases started hst with hst | hadded
    · obtain ⟨x, hx⟩ := h.started hnone hst
      exact ⟨x, hsub _ hx⟩
    · exact hadded
  · dsimp only
    rw [begun]
    exact toSet
  · refine mem_set (fun x hx y hy => hsub _ (h.relies x hx y hy)) fun x hx => ?_
    rw [htxn]
    exact relies x hx

end

/-- **One step of a thread.** -/
theorem Reg.next {k : Nat} (h : Reg s) (hc : s.calls[k]? = some c) (hg : CallOrderly s c i)
    (hn : next s.world c i = some (w', c')) : Reg ⟨w', s.calls.set k c'⟩ := by
  have hmem := List.mem_of_getElem? hc
  have hf := fits_of_next (h.fits c hmem) hn
  have hfit := fitsAdd_of_next (h.fitsAdd c hmem) hn
  cases registering_of_next (h.fitsAdd c hmem) (h.fits c hmem) hg hn with
  | still partitions started begun added sending relies clearing cleared toSet =>
    refine h.still hc hf hfit partitions started begun added (fun hs' => (sending hs').imp id ?_) relies clearing
      cleared toSet
    rintro ⟨htxn, hopen, hpc, hop⟩
    unfold CallOrderly at hg
    rw [hpc] at hg
    exact ⟨htxn, hg hop hopen⟩
  | begin ready op pc partitions begun added pc' =>
    unfold CallOrderly at hg
    rw [pc] at hg
    exact h.begin hc hf hfit ((hg op).2 ready) partitions begun added pc'
  | clearPartitions partitions started history pc pc' => exact h.clearPartitions hc hf hfit partitions history pc pc'
  | clearStarted partitions started history pc pc' => exact h.clearStarted hc hf hfit partitions started history pc pc'
  | accept x handle begun added was txn relies toSet clearing =>
    refine h.sends hc hf hfit was txn clearing begun ?_ ?_ ?_ ?_ ?_ ?_
    · rw [added]
      exact fun e he => List.mem_append_left _ he
    · rw [added]
      intro e he
      rcases List.mem_append.1 he with he | he
      · exact Or.inl he
      · rw [List.mem_singleton.1 he]
        exact Or.inr rfl
    · rw [handle]
      exact fun tp htp => Or.inl htp
    · rw [handle]
      exact Or.inl
    · exact fun _ _ => Or.inr ⟨c', mem_set_self hc, toSet⟩
    · intro y hy
      rw [relies] at hy
      cases hy
      rw [added]
      exact List.mem_append_right _ (List.mem_singleton_self _)
  | setStarted partitions started history was txn relied relies clearing =>
    obtain ⟨x, hx⟩ := relied
    have htxn := h.sending c hmem was
    have hadded : ∀ y, c.relies = some y → (s.world.history.begun, y) ∈ s.world.history.added := fun y hy =>
      htxn ▸ h.relies c hmem y hy
    refine h.sends hc hf hfit was txn clearing (by rw [history]) ?_ ?_ ?_ ?_ ?_ ?_
    all_goals rw [history]
    · exact fun e he => he
    · exact fun e he => Or.inl he
    · rw [partitions]
      exact fun tp htp => Or.inl htp
    · exact fun _ => Or.inr ⟨x, hadded x hx⟩
    · exact fun _ _ => Or.inl started
    · exact fun y hy => hadded y (relies y hy)
  | publish tp partitions started history was txn relied relies clearing toSet =>
    have htxn := h.sending c hmem was
    have hadded : ∀ y, c.relies = some y → (s.world.history.begun, y) ∈ s.world.history.added := fun y hy =>
      htxn ▸ h.relies c hmem y hy
    refine h.sends hc hf hfit was txn clearing (by rw [history]) ?_ ?_ ?_ ?_ ?_ ?_
    all_goals rw [history]
    · exact fun e he => he
    · exact fun e he => Or.inl he
    · rw [partitions]
      intro tp' htp'
      rcases Finset.mem_insert.1 htp' with rfl | htp'
      · exact Or.inr (hadded _ relied)
      · exact Or.inl htp'
    · rw [started]
      exact Or.inl
    · rw [started]
      intro x hx
      refine (h.toSet x hx).imp id ?_
      rintro ⟨y, hy, hyset⟩
      exact toSet_mem_set hc hy hyset fun hset => absurd (toSet.symm.trans hset) Bool.false_ne_true
    · exact fun y hy => hadded y (relies y hy)

theorem Reg.call (h : Reg s) (op : Op) : Reg { s with calls := s.calls ++ [⟨op, 0, .start⟩] } := by
  have hall : ∀ {P : Call → Prop}, (∀ c ∈ s.calls, P c) → P ⟨op, 0, .start⟩ →
      ∀ c ∈ s.calls ++ [⟨op, 0, .start⟩], P c := by
    intro P hP hnew c hc
    rcases List.mem_append.1 hc with hc | hc
    · exact hP c hc
    · rw [List.mem_singleton.1 hc]
      exact hnew
  have hold : (∀ c ∈ s.calls ++ [⟨op, 0, .start⟩], c.clearing = false) → ∀ c ∈ s.calls, c.clearing = false :=
    fun hclear c hc => hclear c (List.mem_append_left _ hc)
  refine ⟨hall h.fits (Bool.or_true _), hall h.fitsAdd rfl, hall h.sending ?_, ?_, h.past, hall h.fresh ?_,
    hall h.cleared ?_, fun hclear => h.partitions (hold hclear), fun hclear => h.started (hold hclear), ?_,
    hall h.relies ?_⟩
  · exact fun hs' => absurd hs' Bool.false_ne_true
  · exact hall (fun c hc => hall (h.alone c hc) fun _ => rfl) fun c' _ hclear => absurd hclear Bool.false_ne_true
  · exact fun hclear => absurd hclear Bool.false_ne_true
  · exact fun hclear => absurd hclear Bool.false_ne_true
  · intro x hx
    refine (h.toSet x hx).imp id ?_
    rintro ⟨c, hc, hset⟩
    exact ⟨c, List.mem_append_left _ hc, hset⟩
  · exact fun x hx => by cases hx

theorem step_reg (h : Reg s) (hg : Orderly s e) (hs : step s e = some s') : Reg s' := by
  cases e with
  | call op =>
    cases hs
    exact h.call op
  | step k i =>
    obtain ⟨c, hc, hs⟩ := Option.bind_eq_some_iff.1 hs
    obtain ⟨⟨w', c'⟩, hn, rfl⟩ := Option.map_eq_some_iff.1 hs
    exact h.next hc (hg c hc) hn
  | markSendFailed =>
    cases hs
    exact ⟨h.fits, h.fitsAdd, h.sending, h.alone, h.past, h.fresh, h.cleared, h.partitions, h.started, h.toSet, h.relies⟩

/-! ## Runs -/

/-- `registerPartition` has returned `Right ()`. -/
def Call.registered (c : Call) : Bool :=
  match c.pc with
  | .allocate _ _ | .done (.stamp (.ok _)) => true
  | _ => false

/-- What the coordinator relies on. -/
structure Registered (s : Sys) : Prop where
  /-- A partition that was registered for a send was added to the transaction of the
      send, before its end. -/
  added : ∀ c ∈ s.calls, ∀ tp, c.op = .send tp → c.registered = true → (c.txn, some tp) ∈ s.world.history.added
  /-- The flag says whether something was added to the latest transaction, but while a
      begin is yet to clear it, or the call with the answer to set it. -/
  started : (∀ c ∈ s.calls, c.clearing = false ∧ c.toSet = false) →
    (s.world.handle.txnStarted = true ↔ ∃ x, (s.world.history.begun, x) ∈ s.world.history.added)

theorem relies_of_registered {tp : TopicPartition} (hop : c.op = .send tp) (hr : c.registered = true) :
    c.relies = some (some tp) := by
  obtain ⟨op, n, pc⟩ := c
  cases hop
  cases pc with
  | allocate pid epoch => rfl
  | done r =>
    cases r with
    | txn r => cases hr
    | stamp r =>
      cases r with
      | ok stamp => rfl
      | error err => cases hr
  | _ => cases hr

/-- **No record is sent outside its transaction**, along every run in which no begin
    moves the state while a send is under way, no send passes the gate while a begin
    clears, and no addition is accepted after the end. -/
theorem registered_added {st : TransactionState} {coord : Option TransactionCoordinator} {pid epoch : Option Int}
    {es : List Event} {s : Sys} (hrun : run step (Sys.init st coord pid epoch) es = some s)
    (hg : Along step Orderly (Sys.init st coord pid epoch) es) : Registered s := by
  have h : Reg s := run_invariant (fun _ _ _ h hg hs => step_reg h hg hs) (reg_init st coord pid epoch) hg hrun
  refine ⟨fun c hc tp hop hr => h.relies c hc _ (relies_of_registered hop hr), fun hall => ⟨?_, ?_⟩⟩
  · exact h.started fun c hc => (hall c hc).1
  · rintro ⟨x, hx⟩
    refine (h.toSet x hx).resolve_right ?_
    rintro ⟨c, hc, hset⟩
    exact absurd ((hall c hc).2.symm.trans hset) Bool.false_ne_true

instance decidableCallOrderly (s : Sys) (c : Call) (i : Input) : Decidable (CallOrderly s c i) := by
  unfold CallOrderly
  generalize c.pc = pc
  match pc, i with
  | .move, _ => infer_instance
  | .start, _ => infer_instance
  | .asked _ _, .answer (.ok _) _ => infer_instance
  | pc, i => cases pc <;> cases i <;> (try infer_instance) <;> (rename_i a _; cases a <;> infer_instance)

instance decidableOrderly (s : Sys) : (e : Event) → Decidable (Orderly s e)
  | .step k i => inferInstanceAs (Decidable (∀ c ∈ s.calls[k]?, CallOrderly s c i))
  | .call .. => inferInstanceAs (Decidable True)
  | .markSendFailed => inferInstanceAs (Decidable True)

/-- In the run of a begin, a send and a commit. -/
theorem registered_added_commit :
    (run step (Sys.init .Ready (some someCoordinator) (some 7) (some 0)) beginSendCommit).map
      (fun s => s.world.history.added) = some [(1, some (toLex ("t", 0)))] ∧
    ∀ s, run step (Sys.init .Ready (some someCoordinator) (some 7) (some 0)) beginSendCommit = some s →
      Registered s :=
  ⟨by decide, fun _ hrun => registered_added hrun (by decide)⟩

/-- A send has set the flag, and not published its partition, when its transaction is
    committed and another one begun; then it does, and another send comes. -/
def publishedLate : List Event :=
  [.call .begin] ++ goOn 0 4 ++ [.call (.send (toLex ("t", 0)))] ++ goOn 1 5 ++
    [.step 1 (.answer (.ok (0, 0)) false)] ++ goOn 1 2 ++ [.call .commit] ++ goOn 2 8 ++
    [.step 2 (.answer (.ok (0, 0)) false)] ++ goOn 2 2 ++ [.call .begin] ++ goOn 3 4 ++ goOn 1 1 ++
    [.call (.send (toLex ("t", 0)))] ++ goOn 4 5

/-- **A partition that is registered in the next transaction**, and was not added to it. -/
theorem late_publish : ∃ s, run step (Sys.init .Ready (some someCoordinator) (some 7) (some 0)) publishedLate = some s ∧
    ¬ Registered s := by
  have hview : (run step (Sys.init .Ready (some someCoordinator) (some 7) (some 0)) publishedLate).map (fun s =>
      (s.calls[4]?.map fun c => (c.op, c.registered, c.txn))) = some (some (.send (toLex ("t", 0)), true, 2)) := by
    decide
  have hadded : (run step (Sys.init .Ready (some someCoordinator) (some 7) (some 0)) publishedLate).map
      (fun s => s.world.history.added) = some [(1, some (toLex ("t", 0)))] := by
    decide
  obtain ⟨s, hrun, hs⟩ := Option.map_eq_some_iff.1 hview
  obtain ⟨c, hc, he⟩ := Option.map_eq_some_iff.1 hs
  simp only [Prod.mk.injEq] at he
  rw [hrun, Option.map_some] at hadded
  refine ⟨s, hrun, fun h => ?_⟩
  have hin := h.added c (List.mem_of_getElem? hc) _ he.1 he.2.1
  rw [Option.some.inj hadded, he.2.2] at hin
  exact absurd hin (by decide)

end Wireform.Kafka.Transaction
