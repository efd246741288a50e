/-
  The lifecycle of transactions, for every interleaving of calls.

  A commit or an abort is the owner of the transaction from its move of the state to
  its last write (`Call.owner`).

  * `lifecycle_of_next`: what a step of a thread does to the state, in five cases;
  * `step_inv`: one step, with `Guarded` for what the code does not look after: a move
    of the state to itself, and an epoch bump that fails after the end was accepted;
  * `lifecycle_safe`: over a run no transaction is begun or ended twice, no late write
    reaches a later transaction, and a fenced producer stays fenced;
  * `begun_twice`: two begins that both return, for one transaction.
-/
import Wireform.Kafka.Transaction.Model

namespace Wireform.Kafka.Transaction

open Transition

/-! ## Calls -/

def Op.ends : Op → Bool
  | .commit => true
  | .abort => true
  | _ => false

def Request.ends : Request → Bool
  | .endTxn _ _ _ => true
  | .initProducerId _ _ => true
  | _ => false

attribute [grind =] Request.ends

/-- A commit or abort between its move and its last write. -/
def Call.owner (c : Call) : Bool :=
  match c.pc with
  | .readCoordinator | .readProducerId _ | .readProducerEpoch _ _ | .readStarted _ _ _ => c.op.ends
  | .retry r | .asked r _ | .rediscover r _ | .answered r _ => r.ends
  | .bumpProducerId _ _ | .bumpProducerEpoch _ | .bumped | .failEnd _ | .writeAborted | .writeReady => true
  | _ => false

attribute [grind =] Call.owner

/-- An owner that may yet send an `EndTxn`, or put the transaction back. -/
def Call.unended (c : Call) : Bool :=
  match c.pc with
  | .readCoordinator | .readProducerId _ | .readProducerEpoch _ _ | .readStarted _ _ _ => c.op.ends
  | .retry (.endTxn _ _ _) | .asked (.endTxn _ _ _) _ | .rediscover (.endTxn _ _ _) _ => true
  | .answered (.endTxn _ _ _) (.error _) => true
  | .failEnd err => failedState .InTransaction err = .InTransaction
  | _ => false

attribute [grind =] Call.unended

/-- A begin whose move has succeeded. -/
def Call.hasBegun (c : Call) : Bool :=
  c.op = .begin && match c.pc with
    | .clearPartitions | .clearStarted | .done (.txn (.ok ())) => true
    | _ => false

attribute [grind =] Call.hasBegun

/-- A begin does not get to what is for the other calls. -/
def Call.fits (c : Call) : Bool :=
  c.op ≠ .begin || match c.pc with
    | .start | .move | .clearPartitions | .clearStarted | .done _ => true
    | _ => false

/-- The state belongs to a commit or an abort. -/
def TransactionState.ending : TransactionState → Bool
  | .Committing => true
  | .Aborting => true
  | .Aborted => true
  | _ => false

/-! ## Steps -/

variable {w w' : World} {c c' : Call} {i : Input} {s s' : Sys} {e : Event}

/-- What the code does not look after: a move of the state to itself, and an epoch bump
    that fails in a way that puts the transaction back. -/
def CallGuarded (w : World) (c : Call) : Prop :=
  match c.pc with
  | .move =>
    match c.op with
    | .begin => w.handle.txnState ≠ .InTransaction
    | .commit => w.handle.txnState ≠ .Committing
    | .abort => w.handle.txnState ≠ .Aborting
    | _ => True
  | .answered (.initProducerId _ _) (.error err) => retriable err = false
  | _ => True

def Guarded (s : Sys) : Event → Prop
  | .step k _ => ∀ c ∈ s.calls[k]?, CallGuarded s.world c
  | _ => True

/-- What a step of a thread may do to the state, as its call goes from `c` to `c'`. -/
inductive Lifecycle (w : World) (c : Call) (w' : World) (c' : Call) : Prop
  | quiet (state : w'.handle.txnState = w.handle.txnState) (begun : w'.history.begun = w.history.begun)
      (ended : w'.history.ended = w.history.ended) (writes : w'.history.writes = w.history.writes)
      (fenced : w'.history.fenced = w.history.fenced) (owner : c'.owner = true → c.owner = true ∧ c'.txn = c.txn)
      (unended : c'.unended = true → c.unended = true)
      (hasBegun : c'.hasBegun = true → c.hasBegun = true ∧ c'.txn = c.txn)
  | begin (ready : w.handle.txnState = .Ready) (state : w'.handle.txnState = .InTransaction)
      (begun : w'.history.begun = w.history.begun + 1) (ended : w'.history.ended = w.history.ended)
      (writes : w'.history.writes = w.history.writes) (fenced : w'.history.fenced = w.history.fenced)
      (txn : c'.txn = w.history.begun + 1) (owner : c'.owner = false) (unended : c'.unended = false)
  | own (open_ : w.handle.txnState = .InTransaction) (state : w'.handle.txnState.ending = true)
      (history : w'.history = w.history) (txn : c'.txn = w.history.begun) (owner : c'.owner = true)
      (hasBegun : c'.hasBegun = false)
  | endTxn (state : w'.handle.txnState = w.handle.txnState) (begun : w'.history.begun = w.history.begun)
      (ended : w'.history.ended = w.history.ended ++ [w.history.begun])
      (writes : w'.history.writes = w.history.writes) (fenced : w'.history.fenced = w.history.fenced)
      (was : c.unended = true) (wasOwner : c.owner = true) (txn : c'.txn = c.txn) (unended : c'.unended = false)
      (hasBegun : c'.hasBegun = false)
  | write (wasOwner : c.owner = true) (begun : w'.history.begun = w.history.begun)
      (ended : w'.history.ended = w.history.ended)
      (writes : w'.history.writes = w.history.writes ++ [(c.txn, w.history.begun)])
      (fenced : w'.history.fenced = (w.history.fenced || w'.handle.txnState = .Fenced))
      (txn : c'.txn = c.txn) (owner : c'.owner = true → w'.handle.txnState.ending = true)
      (unended : c'.unended = false) (back : w'.handle.txnState = .InTransaction → c.unended = true)
      (hasBegun : c'.hasBegun = false)

variable {st : TransactionState} {n : Nat} {pc : Pc} {op : Op} {α : Type}

theorem isValidTransition_inTransaction (h : isValidTransition st .InTransaction = true)
    (hne : st ≠ .InTransaction) : st = .Ready := by
  cases st <;> simp_all [isValidTransition]

theorem isValidTransition_ending {st st' : TransactionState} (hst' : st' = .Committing ∨ st' = .Aborting)
    (h : isValidTransition st st' = true) (hne : st ≠ st') : st = .InTransaction := by
  rcases hst' with rfl | rfl <;> cases st <;> simp_all [isValidTransition]

/-- A call goes on, and leaves the state alone. -/
theorem Lifecycle.goOn (state : w'.handle.txnState = w.handle.txnState) (history : w'.history = w.history)
    (owner : Call.owner { c with pc := pc } = true → c.owner = true)
    (unended : Call.unended { c with pc := pc } = true → c.unended = true)
    (hasBegun : Call.hasBegun { c with pc := pc } = true → c.hasBegun = true) :
    Lifecycle w c w' { c with pc := pc } := by
  refine Lifecycle.quiet state ?_ ?_ ?_ ?_ (fun h => ⟨owner h, rfl⟩) unended fun h => ⟨hasBegun h, rfl⟩
  · rw [history]
  · rw [history]
  · rw [history]
  · rw [history]

/-- A call that is over without having begun a transaction. -/
theorem Lifecycle.over (state : w'.handle.txnState = w.handle.txnState) (history : w'.history = w.history)
    (hpc : pc = .move ∨ (∃ err, pc = .done (.err err)) ∨ (pc = .done .ok ∧ c.op ≠ .begin)) :
    Lifecycle w c w' { c with pc := pc } := by
  refine Lifecycle.goOn state history ?_ ?_ ?_
  all_goals
    rcases hpc with rfl | ⟨err, rfl⟩ | ⟨rfl, hop⟩
    · simp [Call.owner, Call.unended, Call.hasBegun]
    · simp [Call.owner, Call.unended, Call.hasBegun, Result.err]
    · simp [Call.owner, Call.unended, Call.hasBegun, *]

theorem lifecycle_moveBegin (hpc : c.pc = .move) (hop : c.op = .begin) (hg : CallGuarded w c) :
    Lifecycle w c (moveBegin w c).1 (moveBegin w c).2 := by
  unfold CallGuarded at hg
  rw [hpc, hop] at hg
  unfold moveBegin
  by_cases hvalid : isValidTransition w.handle.txnState .InTransaction = true
  · have hready := isValidTransition_inTransaction hvalid hg
    rw [if_pos hvalid, if_neg hg]
    exact Lifecycle.begin hready rfl rfl rfl rfl rfl rfl rfl rfl
  · rw [if_neg hvalid]
    exact Lifecycle.over rfl rfl (Or.inr (Or.inl ⟨_, rfl⟩))

theorem lifecycle_moveEnd (hop : c.op.ends = true)
    (hst : st = .Committing ∨ st = .Aborting) (hne : w.handle.txnState ≠ st) :
    Lifecycle w c (moveEnd w c st).1 (moveEnd w c st).2 := by
  have hend : st.ending = true := by
    rcases hst with rfl | rfl
    · rfl
    · rfl
  unfold moveEnd
  by_cases hvalid : isValidTransition w.handle.txnState st = true
  · rw [if_pos hvalid]
    refine Lifecycle.own (isValidTransition_ending hst hvalid hne) hend rfl rfl hop ?_
    unfold Call.hasBegun
    rw [Bool.and_false]
  · rw [if_neg hvalid]
    exact Lifecycle.over rfl rfl (Or.inr (Or.inl ⟨_, rfl⟩))

theorem beginFrom_cases (st : TransactionState) : beginFrom st = .move ∨ ∃ err, beginFrom st = .done (.err err) := by
  cases st with
  | Ready => exact Or.inl rfl
  | _ => exact Or.inr ⟨_, rfl⟩

theorem commitFrom_cases (failed : Bool) (st : TransactionState) : commitFrom failed st = .move ∨
    (∃ err, commitFrom failed st = .done (.err err)) ∨ commitFrom failed st = .done .ok := by
  cases st with
  | InTransaction =>
    cases failed with
    | false => exact Or.inl rfl
    | true => exact Or.inr (Or.inl ⟨_, rfl⟩)
  | Committing => exact Or.inr (Or.inr rfl)
  | _ => exact Or.inr (Or.inl ⟨_, rfl⟩)

theorem abortFrom_cases (st : TransactionState) : abortFrom st = .move ∨
    (∃ err, abortFrom st = .done (.err err)) ∨ abortFrom st = .done .ok := by
  cases st with
  | InTransaction => exact Or.inl rfl
  | Aborting => exact Or.inr (Or.inr rfl)
  | _ => exact Or.inr (Or.inl ⟨_, rfl⟩)

theorem sendOffsetsFrom_cases (st : TransactionState) :
    sendOffsetsFrom st = .readCoordinator ∨ ∃ err, sendOffsetsFrom st = .done (.err err) := by
  cases st with
  | InTransaction => exact Or.inl rfl
  | _ => exact Or.inr ⟨_, rfl⟩

theorem lifecycle_enter : Lifecycle w ⟨op, n, .start⟩ w (enter w ⟨op, n, .start⟩) := by
  cases op with
  | begin => exact Lifecycle.over rfl rfl ((beginFrom_cases w.handle.txnState).imp id Or.inl)
  | commit =>
    refine Lifecycle.goOn rfl rfl ?_ ?_ ?_
    all_goals simp [Call.owner, Call.unended, Call.hasBegun]
  | abort =>
    refine Lifecycle.over rfl rfl ((abortFrom_cases w.handle.txnState).imp id (Or.imp id fun h => ⟨h, ?_⟩))
    exact fun h => Op.noConfusion h
  | send tp =>
    refine Lifecycle.quiet rfl rfl rfl rfl rfl ?_ ?_ ?_
    all_goals simp [enter, Call.owner, Call.unended, Call.hasBegun]
  | sendOffsets group =>
    refine Lifecycle.quiet rfl rfl rfl rfl rfl ?_ ?_ ?_
    all_goals
      dsimp only [enter]
      rcases sendOffsetsFrom_cases w.handle.txnState with h | ⟨err, h⟩
      all_goals simp [h, Call.owner, Call.unended, Call.hasBegun, Op.ends]

/-- What a commit, an abort or `sendOffsets` does when it has read all. -/
theorem haveRead_cases (c : Call) (started : Bool) (coord : Option TransactionCoordinator) (pid epoch : Option Int) :
    (c.op.ends = true ∧ (haveRead c started coord pid epoch = .writeReady ∨
      ∃ b p e, haveRead c started coord pid epoch = .retry (.endTxn b p e))) ∨
    (∃ g p e, c.op = .sendOffsets g ∧ haveRead c started coord pid epoch = .retry (.addOffsets g p e)) ∨
    ∃ err, haveRead c started coord pid epoch = .done (.err err) := by
  unfold haveRead
  cases c.op with
  | begin => exact Or.inr (Or.inr ⟨_, rfl⟩)
  | send tp => exact Or.inr (Or.inr ⟨_, rfl⟩)
  | sendOffsets group =>
    dsimp only
    split
    · exact Or.inr (Or.inl ⟨_, _, _, rfl, rfl⟩)
    · exact Or.inr (Or.inr ⟨_, rfl⟩)
  | commit | abort =>
    dsimp only
    split
    · exact Or.inl ⟨rfl, Or.inl rfl⟩
    · split
      · exact Or.inl ⟨rfl, Or.inr ⟨_, _, _, rfl⟩⟩
      · exact Or.inr (Or.inr ⟨_, rfl⟩)

theorem lifecycle_haveRead {started : Bool} {coord : Option TransactionCoordinator} {pid epoch : Option Int}
    (howner : c.op.ends = true → c.owner = true) (hunended : c.op.ends = true → c.unended = true) :
    Lifecycle w c w { c with pc := haveRead c started coord pid epoch } := by
  rcases haveRead_cases c started coord pid epoch with ⟨hop, h | ⟨b, p, e, h⟩⟩ | ⟨g, p, e, -, h⟩ | ⟨err, h⟩
  · rw [h]
    refine Lifecycle.goOn rfl rfl (fun _ => howner hop) ?_ ?_
    all_goals simp [Call.unended, Call.hasBegun]
  · rw [h]
    refine Lifecycle.goOn rfl rfl (fun _ => howner hop) (fun _ => hunended hop) ?_
    simp [Call.hasBegun]
  · rw [h]
    refine Lifecycle.goOn rfl rfl ?_ ?_ ?_
    all_goals simp [Call.owner, Call.unended, Call.hasBegun, Request.ends]
  · rw [h]
    exact Lifecycle.over rfl rfl (Or.inr (Or.inl ⟨err, rfl⟩))

theorem accept_added {r : Request} (hr : r.ends = false) (g : History) : (accept r g).begun = g.begun ∧
    (accept r g).ended = g.ended ∧ (accept r g).writes = g.writes ∧ (accept r g).fenced = g.fenced := by
  cases r with
  | endTxn b p e => cases hr
  | initProducerId p e => cases hr
  | addPartitions tp p e | addOffsets group p e =>
    unfold accept
    dsimp only
    split_ifs
    · exact ⟨rfl, rfl, rfl, rfl⟩
    · exact ⟨rfl, rfl, rfl, rfl⟩

theorem onAnswer_error_world (w : World) (r : Request) (coord : TransactionCoordinator) (err : CoordinatorError)
    (late : Bool) : (onAnswer w r coord (.error err) late).1 = w := by
  unfold onAnswer
  dsimp only
  split_ifs
  · rfl
  · rfl

/-- After an error the request is sent again, perhaps to another coordinator, or given up. -/
theorem onAnswer_error (w : World) (r : Request) (coord : TransactionCoordinator) (err : CoordinatorError)
    (late : Bool) : (onAnswer w r coord (.error err) late).2 = .asked r coord ∨
      (onAnswer w r coord (.error err) late).2 = .rediscover r coord ∨
      (onAnswer w r coord (.error err) late).2 = .answered r (.error err) := by
  unfold onAnswer
  dsimp only
  split_ifs
  · cases err <;> simp
  · exact Or.inr (Or.inr rfl)

theorem lifecycle_onAnswer {r : Request} {coord : TransactionCoordinator} {x : Answer} {late : Bool} :
    Lifecycle w ⟨op, n, .asked r coord⟩ (onAnswer w r coord x late).1 ⟨op, n, (onAnswer w r coord x late).2⟩ := by
  cases x with
  | ok ids =>
    cases hr : r.ends with
    | false =>
      obtain ⟨hbegun, hended, hwrites, hfenced⟩ := accept_added hr w.history
      refine Lifecycle.quiet rfl hbegun hended hwrites hfenced ?_ ?_ ?_
      · simp [Call.owner, onAnswer, hr]
      · simp [Call.unended, onAnswer]
      · simp [Call.hasBegun, onAnswer]
    | true =>
      cases r with
      | endTxn b p e => exact Lifecycle.endTxn rfl rfl rfl rfl rfl rfl rfl rfl rfl (Bool.and_false _)
      | initProducerId p e =>
        refine Lifecycle.goOn (c := ⟨op, n, _⟩) rfl rfl (fun _ => rfl) ?_ ?_
        all_goals simp [Call.unended, Call.hasBegun, onAnswer]
      | addPartitions tp p e => cases hr
      | addOffsets group p e => cases hr
  | error err =>
    rw [onAnswer_error_world]
    refine Lifecycle.goOn (c := ⟨op, n, _⟩) rfl rfl ?_ ?_ ?_
    all_goals
      rcases onAnswer_error w r coord err late with h | h | h
      all_goals
        rw [h]
        cases r <;> simp [Call.owner, Call.unended, Call.hasBegun, Request.ends]

theorem failedState_inTransaction {err : CoordinatorError} (h : retriable err = false) :
    failedState .InTransaction err ≠ .InTransaction := by
  cases err with
  | UnknownCoordinatorError code msg =>
    unfold failedState coordinatorErrorToTxn
    dsimp only
    split_ifs <;> simp
  | _ => simp_all [retriable, failedState, coordinatorErrorToTxn]

theorem lifecycle_afterAnswer {r : Request} {x : Answer}
    (hg : CallGuarded w ⟨op, n, .answered r x⟩) :
    Lifecycle w ⟨op, n, .answered r x⟩ w ⟨op, n, afterAnswer w r x⟩ := by
  refine Lifecycle.goOn (c := ⟨op, n, _⟩) rfl rfl ?_ ?_ ?_
  · cases r with
    | endTxn b p e => exact fun _ => rfl
    | initProducerId p e => exact fun _ => rfl
    | addPartitions tp p e | addOffsets group p e => cases x <;> simp [afterAnswer, Call.owner]
  · cases r with
    | endTxn b p e =>
      cases x with
      | error err => exact fun _ => rfl
      | ok ids =>
        cases b with
        | true => simp [afterAnswer, Call.unended]
        | false =>
          unfold afterAnswer
          dsimp only
          split_ifs
          · simp [Call.unended]
          · simp [Call.unended]
    | initProducerId p e =>
      cases x with
      | ok ids => simp [afterAnswer, Call.unended]
      | error err =>
        have hnot := failedState_inTransaction (show retriable err = false from hg)
        simp [afterAnswer, Call.unended, hnot]
    | addPartitions tp p e | addOffsets group p e => cases x <;> simp [afterAnswer, Call.unended]
  · cases r with
    | endTxn b p e =>
      cases b <;> cases x <;> simp [afterAnswer, Call.hasBegun]
      split_ifs <;> simp
    | initProducerId p e | addPartitions tp p e | addOffsets group p e =>
      cases x <;> simp [afterAnswer, Call.hasBegun, Result.err]

theorem ne_begin_of_fits (h : Call.fits ⟨op, n, pc⟩ = true)
    (hpc : Call.fits ⟨.begin, n, pc⟩ = false) : op ≠ .begin := by
  rintro rfl
  rw [hpc] at h
  cases h

theorem claimPartition_cases {h h' : Handle} {tp : TopicPartition} {pid epoch : Int}
    (hclaim : claimPartition h tp pid epoch = some (h', pc)) :
    h'.txnState = h.txnState ∧ (pc = .allocate pid epoch ∨ pc = .retry (.addPartitions tp pid epoch)) := by
  unfold claimPartition at hclaim
  split_ifs at hclaim
  · cases hclaim
    exact ⟨rfl, Or.inl rfl⟩
  · cases hclaim
    exact ⟨rfl, Or.inr rfl⟩

theorem lifecycle_write {pc' : Pc}
    (howner : Call.owner ⟨op, n, pc⟩ = true) (howner' : Call.owner ⟨op, n, pc'⟩ = true → st.ending = true)
    (hunended : Call.unended ⟨op, n, pc'⟩ = false) (hback : st = .InTransaction → Call.unended ⟨op, n, pc⟩ = true)
    (hbegun : Call.hasBegun ⟨op, n, pc'⟩ = false) :
    Lifecycle w ⟨op, n, pc⟩ (writeState w ⟨op, n, pc⟩ st) ⟨op, n, pc'⟩ :=
  Lifecycle.write howner rfl rfl rfl rfl rfl howner' hunended hback hbegun

theorem Lifecycle.ofPair {p : World × Call} (h : some p = some (w', c')) (hl : Lifecycle w c p.1 p.2) :
    Lifecycle w c w' c' := by
  cases h
  exact hl

/-- **What a step of a thread does to the state.** -/
theorem lifecycle_of_next (hf : c.fits = true) (hg : CallGuarded w c) (h : next w c i = some (w', c')) : Lifecycle w c w' c' := by
  obtain ⟨op, n, pc⟩ := c
  cases i with
  | go =>
    cases pc with
    | start =>
      cases h
      exact lifecycle_enter
    | readSendFailed st =>
      cases h
      have hop := ne_begin_of_fits hf rfl
      exact Lifecycle.over (c := ⟨op, n, _⟩) rfl rfl
        ((commitFrom_cases w.handle.txnEpochBumpNeeded st).imp id (Or.imp id fun h => ⟨h, hop⟩))
    | move =>
      cases op with
      | begin => exact Lifecycle.ofPair h (lifecycle_moveBegin rfl rfl hg)
      | commit => exact Lifecycle.ofPair h (lifecycle_moveEnd rfl (Or.inl rfl) hg)
      | abort => exact Lifecycle.ofPair h (lifecycle_moveEnd rfl (Or.inr rfl) hg)
      | send tp => cases h
      | sendOffsets group => cases h
    | readProducerEpoch coord pid =>
      cases op with
      | sendOffsets group =>
        cases h
        exact lifecycle_haveRead (c := ⟨.sendOffsets group, n, _⟩) id id
      | begin | commit | abort | send tp =>
        cases h
        exact Lifecycle.goOn (c := ⟨_, n, _⟩) rfl rfl id id (by simp [Call.hasBegun])
    | readStarted coord pid epoch =>
      cases h
      exact lifecycle_haveRead (c := ⟨op, n, _⟩) id id
    | readCoordinator | readProducerId coord =>
      cases h
      exact Lifecycle.goOn (c := ⟨op, n, _⟩) rfl rfl id id (by simp [Call.hasBegun])
    | retry r =>
      cases h
      refine Lifecycle.goOn (c := ⟨op, n, _⟩) rfl rfl ?_ ?_ ?_
      all_goals
        cases w.handle.txnCoordinator
        all_goals cases r <;> simp [Call.owner, Call.unended, Call.hasBegun, Request.ends]
    | answered r x =>
      cases h
      exact lifecycle_afterAnswer hg
    | clearPartitions | clearStarted =>
      cases h
      refine Lifecycle.goOn (c := ⟨op, n, _⟩) rfl rfl ?_ ?_ ?_
      all_goals simp [Call.owner, Call.unended, Call.hasBegun, Result.ok]
    | bumpProducerId pid epoch | bumpProducerEpoch epoch | bumped =>
      cases h
      refine Lifecycle.goOn (c := ⟨op, n, _⟩) rfl rfl (fun _ => rfl) ?_ ?_
      all_goals simp [Call.unended, Call.hasBegun]
    | failEnd err =>
      cases h
      refine lifecycle_write rfl ?_ rfl decide_eq_true (Bool.and_false _)
      simp [Call.owner]
    | writeAborted =>
      cases h
      exact lifecycle_write rfl (fun _ => rfl) rfl (fun h => TransactionState.noConfusion h) (Bool.and_false _)
    | writeReady =>
      cases h
      have hop := ne_begin_of_fits hf rfl
      refine lifecycle_write rfl ?_ rfl (fun h => TransactionState.noConfusion h) ?_
      all_goals simp [Call.owner, Call.hasBegun, hop]
    | gateProducerId st =>
      cases h
      refine Lifecycle.goOn (c := ⟨op, n, _⟩) rfl rfl ?_ ?_ ?_
      all_goals simp [Call.owner, Call.unended, Call.hasBegun]
    | gateProducerEpoch st pid =>
      cases h
      refine Lifecycle.goOn (c := ⟨op, n, _⟩) rfl rfl ?_ ?_ ?_
      all_goals
        dsimp only
        split
        all_goals simp [Call.owner, Call.unended, Call.hasBegun]
    | claim pid epoch =>
      cases op with
      | send tp =>
        obtain ⟨⟨hd, pc⟩, hclaim, hs⟩ := Option.map_eq_some_iff.1 h
        cases hs
        obtain ⟨hstate, hpc⟩ := claimPartition_cases hclaim
        refine Lifecycle.goOn (c := ⟨.send tp, n, _⟩) hstate rfl ?_ ?_ ?_
        all_goals
          rcases hpc with rfl | rfl
          all_goals simp [Call.owner, Call.unended, Call.hasBegun, Request.ends]
      | _ => cases h
    | setStarted pid epoch =>
      cases h
      refine Lifecycle.goOn (c := ⟨op, n, _⟩) rfl rfl ?_ ?_ ?_
      all_goals cases op <;> simp [Call.owner, Call.unended, Call.hasBegun]
    | publish pid epoch failed =>
      cases op with
      | send tp =>
        cases h
        refine Lifecycle.goOn (c := ⟨.send tp, n, _⟩) ?_ rfl ?_ ?_ ?_
        all_goals cases failed <;> simp [Call.owner, Call.unended, Call.hasBegun]
      | _ => cases h
    | allocate pid epoch =>
      cases op with
      | send tp =>
        cases h
        refine Lifecycle.goOn (c := ⟨.send tp, n, _⟩) rfl rfl ?_ ?_ ?_
        all_goals simp [Call.owner, Call.unended, Call.hasBegun]
      | _ => cases h
    | asked r coord => cases h
    | rediscover r coord => cases h
    | commitOffsets => cases h
    | done r => cases h
  | answer x late =>
    cases pc with
    | asked r coord => exact Lifecycle.ofPair h lifecycle_onAnswer
    | commitOffsets =>
      cases h
      have hop := ne_begin_of_fits hf rfl
      refine Lifecycle.over (c := ⟨op, n, _⟩) rfl rfl ?_
      cases x with
      | ok ids => exact Or.inr (Or.inr ⟨rfl, hop⟩)
      | error err => exact Or.inr (Or.inl ⟨_, rfl⟩)
    | _ => cases h
  | found coord' =>
    cases pc with
    | rediscover r coord =>
      cases coord' with
      | none | some new =>
        cases h
        refine Lifecycle.goOn (c := ⟨op, n, _⟩) rfl rfl id ?_ ?_
        all_goals cases r <;> simp [Call.unended, Call.hasBegun]
    | _ => cases h

theorem op_moveBegin : (moveBegin w c).2.op = c.op := by
  unfold moveBegin
  split_ifs
  · rfl
  · rfl
  · rfl

theorem op_moveEnd : (moveEnd w c st).2.op = c.op := by
  unfold moveEnd
  split_ifs
  · rfl
  · rfl

theorem fits_moveBegin : (moveBegin w ⟨.begin, n, .move⟩).2.fits = true := by
  unfold moveBegin
  split_ifs
  · rfl
  · rfl
  · rfl

/-- A call is what it was. -/
theorem op_of_next (h : next w c i = some (w', c')) : c'.op = c.op := by
  obtain ⟨op, n, pc⟩ := c
  cases i with
  | go =>
    cases pc with
    | start =>
      cases h
      cases op <;> rfl
    | move =>
      cases op with
      | begin => exact (congrArg Call.op (congrArg Prod.snd (Option.some.inj h))).symm.trans op_moveBegin
      | commit | abort => exact (congrArg Call.op (congrArg Prod.snd (Option.some.inj h))).symm.trans op_moveEnd
      | _ => cases h
    | readProducerEpoch coord pid =>
      cases op with
      | _ =>
        cases h
        rfl
    | claim pid epoch =>
      cases op with
      | send tp =>
        obtain ⟨⟨hd, pc⟩, -, hs⟩ := Option.map_eq_some_iff.1 h
        cases hs
        rfl
      | _ => cases h
    | publish pid epoch failed | allocate pid epoch =>
      cases op with
      | send tp =>
        cases h
        rfl
      | _ => cases h
    | asked r coord | rediscover r coord | commitOffsets | done r => cases h
    | _ =>
      cases h
      rfl
  | answer x late =>
    cases pc with
    | asked r coord | commitOffsets =>
      cases h
      rfl
    | _ => cases h
  | found coord' =>
    cases pc with
    | rediscover r coord =>
      cases coord' with
      | none | some new =>
        cases h
        rfl
    | _ => cases h

theorem fits_of_next (hf : c.fits = true) (h : next w c i = some (w', c')) : c'.fits = true := by
  have hop := op_of_next h
  by_cases hb : c.op = .begin
  · obtain ⟨op, n, pc⟩ := c
    cases hb
    cases i with
    | go =>
      cases pc with
      | start =>
        cases h
        rcases beginFrom_cases w.handle.txnState with hpc | ⟨err, hpc⟩
        all_goals simp [enter, Call.fits, hpc]
      | move =>
        have hs := congrArg Prod.snd (Option.some.inj h)
        rw [← show _ = c' from hs]
        exact fits_moveBegin
      | clearPartitions | clearStarted =>
        cases h
        rfl
      | done r => cases h
      | _ => cases hf
    | answer x late =>
      cases pc with
      | asked r coord | commitOffsets => cases hf
      | _ => cases h
    | found coord' =>
      cases pc with
      | rediscover r coord => cases hf
      | _ => cases h
  · unfold Call.fits
    rw [hop, decide_eq_true hb]
    rfl

/-! ## The invariant -/

/-- No two elements are related. -/
def Apart {α : Type} (R : α → α → Prop) (l : List α) : Prop :=
  ∀ (j k : Nat) (x y : α), l[j]? = some x → l[k]? = some y → R x y → j = k

theorem getElem?_set_cases {l : List α} {k j : Nat} {x y : α} (h : (l.set k x)[j]? = some y) :
    (j = k ∧ y = x) ∨ (j ≠ k ∧ l[j]? = some y) := by
  by_cases hjk : j = k
  · subst hjk
    rw [List.getElem?_set_self'] at h
    obtain ⟨-, -, rfl⟩ := Option.map_eq_some_iff.1 h
    exact Or.inl ⟨rfl, rfl⟩
  · rw [List.getElem?_set_ne (Ne.symm hjk)] at h
    exact Or.inr ⟨hjk, h⟩

/-- The new element is related to no other. -/
theorem Apart.set {R : α → α → Prop} {l : List α} (h : Apart R l) {k : Nat} {x : α}
    (hx : ∀ (j : Nat) (y : α), j ≠ k → l[j]? = some y → ¬ R x y ∧ ¬ R y x) : Apart R (l.set k x) := by
  intro j j' y y' hj hj' hR
  rcases getElem?_set_cases hj with ⟨rfl, rfl⟩ | ⟨hne, hold⟩
  · rcases getElem?_set_cases hj' with ⟨rfl, -⟩ | ⟨hne', hold'⟩
    · rfl
    · exact absurd hR (hx j' y' hne' hold').1
  · rcases getElem?_set_cases hj' with ⟨rfl, rfl⟩ | ⟨-, hold'⟩
    · exact absurd hR (hx j y hne hold).2
    · exact h j j' y y' hold hold' hR

/-- The new element is related to what the old one was. -/
theorem Apart.set_mono {R : α → α → Prop} {l : List α} (h : Apart R l) {k : Nat} {x x' : α}
    (hk : l[k]? = some x) (hleft : ∀ y, R x' y → R x y) (hright : ∀ y, R y x' → R y x) : Apart R (l.set k x') :=
  h.set fun j y hne hj =>
    ⟨fun hR => hne (h k j x y hk hj (hleft y hR)).symm, fun hR => hne (h j k y x hj hk (hright y hR))⟩

theorem Apart.append {R : α → α → Prop} {l : List α} (h : Apart R l) {x : α}
    (hx : ∀ y ∈ x :: l, ¬ R x y ∧ ¬ R y x) : Apart R (l ++ [x]) := by
  have hcases : ∀ {j : Nat} {y : α}, (l ++ [x])[j]? = some y → l[j]? = some y ∨ y = x := by
    intro j y hj
    rcases lt_or_ge j l.length with hlt | hle
    · rw [List.getElem?_append_left hlt] at hj
      exact Or.inl hj
    · rw [List.getElem?_append_right hle] at hj
      exact Or.inr (List.mem_singleton.1 (List.mem_of_getElem? hj))
  intro j j' y y' hj hj' hR
  rcases hcases hj with hold | rfl
  · rcases hcases hj' with hold' | rfl
    · exact h j j' y y' hold hold' hR
    · exact absurd hR (hx y (List.mem_cons_of_mem _ (List.mem_of_getElem? hold))).2
  · have hy' : y' ∈ y :: l := by
      rcases hcases hj' with hold' | rfl
      · exact List.mem_cons_of_mem _ (List.mem_of_getElem? hold')
      · exact List.mem_cons_self
    exact absurd hR (hx y' hy').1

def BothOwn (c c' : Call) : Prop := c.owner = true ∧ c'.owner = true

def SameTxn (c c' : Call) : Prop := c.hasBegun = true ∧ c'.hasBegun = true ∧ c.txn = c'.txn

/-- The calls own what they should: one owner at most, of the latest transaction, while
    the state belongs to it; an open transaction has not been ended; and the begins have
    transactions of their own. -/
structure Inv (s : Sys) : Prop where
  fits : ∀ c ∈ s.calls, c.fits = true
  one : Apart BothOwn s.calls
  owner : ∀ c ∈ s.calls, c.owner = true →
    s.world.handle.txnState.ending = true ∧ c.txn = s.world.history.begun
  once : s.world.history.ended.Nodup
  past : ∀ n ∈ s.world.history.ended, n ≤ s.world.history.begun
  open_ : s.world.handle.txnState = .InTransaction → s.world.history.begun ∉ s.world.history.ended
  unended : ∀ c ∈ s.calls, c.unended = true → s.world.history.begun ∉ s.world.history.ended
  begun : ∀ c ∈ s.calls, c.hasBegun = true → c.txn ≤ s.world.history.begun
  apart : Apart SameTxn s.calls
  writes : ∀ e ∈ s.world.history.writes, e.1 = e.2
  fenced : s.world.history.fenced = true → s.world.handle.txnState = .Fenced

theorem inv_init (st : TransactionState) (coord : Option TransactionCoordinator) (pid epoch : Option Int) :
    Inv (Sys.init st coord pid epoch) where
  fits _ hc := absurd hc List.not_mem_nil
  one _ _ _ _ hj := by cases hj
  owner _ hc := absurd hc List.not_mem_nil
  once := List.nodup_nil
  past _ hn := absurd hn List.not_mem_nil
  open_ _ := List.not_mem_nil
  unended _ hc := absurd hc List.not_mem_nil
  begun _ hc := absurd hc List.not_mem_nil
  apart _ _ _ _ hj := by cases hj
  writes _ he := absurd he List.not_mem_nil
  fenced h := of_decide_eq_true h

/-- A call that owns nothing and has begun nothing takes the place of another. -/
theorem mem_set {P : Call → Prop} {l : List Call} {k : Nat} (h : ∀ c ∈ l, P c) (hc' : P c') :
    ∀ c ∈ l.set k c', P c := by
  intro x hx
  rcases List.mem_or_eq_of_mem_set hx with hx | rfl
  · exact h x hx
  · exact hc'

section
variable {k : Nat} (h : Inv s) (hf : c'.fits = true)
include h hf

theorem Inv.quiet (hc : s.calls[k]? = some c) (state : w'.handle.txnState = s.world.handle.txnState)
    (begun : w'.history.begun = s.world.history.begun) (ended : w'.history.ended = s.world.history.ended)
    (writes : w'.history.writes = s.world.history.writes) (fenced : w'.history.fenced = s.world.history.fenced)
    (owner : c'.owner = true → c.owner = true ∧ c'.txn = c.txn) (unended : c'.unended = true → c.unended = true)
    (hasBegun : c'.hasBegun = true → c.hasBegun = true ∧ c'.txn = c.txn) : Inv ⟨w', s.calls.set k c'⟩ := by
  have hmem := List.mem_of_getElem? hc
  refine ⟨mem_set h.fits hf, ?_, ?_, ?_, ?_, ?_, ?_, ?_, ?_, ?_, ?_⟩
  · exact h.one.set_mono hc (fun y hR => ⟨(owner hR.1).1, hR.2⟩) fun y hR => ⟨hR.1, (owner hR.2).1⟩
  · dsimp only
    rw [state, begun]
    refine mem_set h.owner fun ho => ?_
    obtain ⟨ho, htxn⟩ := owner ho
    rw [htxn]
    exact h.owner c hmem ho
  · rw [ended]
    exact h.once
  · rw [ended, begun]
    exact h.past
  · rw [state, begun, ended]
    exact h.open_
  · dsimp only
    rw [begun, ended]
    exact mem_set h.unended fun hu => h.unended c hmem (unended hu)
  · dsimp only
    rw [begun]
    refine mem_set h.begun fun hb => ?_
    obtain ⟨hb, htxn⟩ := hasBegun hb
    rw [htxn]
    exact h.begun c hmem hb
  · refine h.apart.set_mono hc (fun y hR => ?_) fun y hR => ?_
    · obtain ⟨hb, htxn⟩ := hasBegun hR.1
      exact ⟨hb, hR.2.1, htxn ▸ hR.2.2⟩
    · obtain ⟨hb, htxn⟩ := hasBegun hR.2.1
      exact ⟨hR.1, hb, hR.2.2.trans htxn⟩
  · rw [writes]
    exact h.writes
  · rw [fenced, state]
    exact h.fenced

theorem Inv.begin (ready : s.world.handle.txnState = .Ready)
    (begun : w'.history.begun = s.world.history.begun + 1) (ended : w'.history.ended = s.world.history.ended)
    (writes : w'.history.writes = s.world.history.writes) (fenced : w'.history.fenced = s.world.history.fenced)
    (txn : c'.txn = s.world.history.begun + 1) (owner : c'.owner = false) :
    Inv ⟨w', s.calls.set k c'⟩ := by
  have hnone : ∀ x ∈ s.calls, x.owner = false := by
    intro x hx
    by_contra ho
    have hend := (h.owner x hx (Bool.eq_true_of_not_eq_false ho)).1
    rw [ready] at hend
    cases hend
  have hfresh : s.world.history.begun + 1 ∉ s.world.history.ended := fun hin =>
    absurd (h.past _ hin) (Nat.not_succ_le_self _)
  refine ⟨mem_set h.fits hf, ?_, ?_, ?_, ?_, ?_, ?_, ?_, ?_, ?_, ?_⟩
  · refine h.one.set fun j y _ _ => ⟨fun hR => ?_, fun hR => ?_⟩
    · exact absurd hR.1 (by rw [owner]; exact Bool.false_ne_true)
    · exact absurd hR.2 (by rw [owner]; exact Bool.false_ne_true)
  · refine mem_set (fun x hx ho => ?_) fun ho => ?_
    · rw [hnone x hx] at ho
      cases ho
    · rw [owner] at ho
      cases ho
  · rw [ended]
    exact h.once
  · rw [ended, begun]
    exact fun n hn => (h.past n hn).trans (Nat.le_succ _)
  · rw [begun, ended]
    exact fun _ => hfresh
  · dsimp only
    rw [begun, ended]
    exact fun _ _ _ => hfresh
  · dsimp only
    rw [begun]
    exact mem_set (fun x hx hb => (h.begun x hx hb).trans (Nat.le_succ _)) fun _ => txn.le
  · refine h.apart.set fun j y _ hy => ⟨fun hR => ?_, fun hR => ?_⟩
    · have hle := h.begun y (List.mem_of_getElem? hy) hR.2.1
      rw [← hR.2.2, txn] at hle
      exact absurd hle (Nat.not_succ_le_self _)
    · have hle := h.begun y (List.mem_of_getElem? hy) hR.1
      rw [hR.2.2, txn] at hle
      exact absurd hle (Nat.not_succ_le_self _)
  · rw [writes]
    exact h.writes
  · rw [fenced]
    intro hfen
    have hst := h.fenced hfen
    rw [ready] at hst
    cases hst

theorem Inv.own (open_ : s.world.handle.txnState = .InTransaction) (state : w'.handle.txnState.ending = true)
    (history : w'.history = s.world.history) (txn : c'.txn = s.world.history.begun) (hasBegun : c'.hasBegun = false) :
    Inv ⟨w', s.calls.set k c'⟩ := by
  have hnone : ∀ x ∈ s.calls, x.owner = false := by
    intro x hx
    by_contra ho
    have hend := (h.owner x hx (Bool.eq_true_of_not_eq_false ho)).1
    rw [open_] at hend
    cases hend
  have hfresh := h.open_ open_
  refine ⟨mem_set h.fits hf, ?_, ?_, ?_, ?_, ?_, ?_, ?_, ?_, ?_, ?_⟩
  · refine h.one.set fun j y _ hy => ⟨fun hR => ?_, fun hR => ?_⟩
    · exact absurd hR.2 (by rw [hnone y (List.mem_of_getElem? hy)]; exact Bool.false_ne_true)
    · exact absurd hR.1 (by rw [hnone y (List.mem_of_getElem? hy)]; exact Bool.false_ne_true)
  · dsimp only
    rw [history]
    refine mem_set (fun x hx ho => ?_) fun _ => ⟨state, txn⟩
    rw [hnone x hx] at ho
    cases ho
  · rw [history]
    exact h.once
  · rw [history]
    exact h.past
  · rw [history]
    exact fun _ => hfresh
  · dsimp only
    rw [history]
    exact fun _ _ _ => hfresh
  · dsimp only
    rw [history]
    refine mem_set h.begun fun hb => ?_
    rw [hasBegun] at hb
    cases hb
  · refine h.apart.set fun j y _ _ => ⟨fun hR => ?_, fun hR => ?_⟩
    · exact absurd hR.1 (by rw [hasBegun]; exact Bool.false_ne_true)
    · exact absurd hR.2.1 (by rw [hasBegun]; exact Bool.false_ne_true)
  · rw [history]
    exact h.writes
  · rw [history]
    intro hfen
    have hst := h.fenced hfen
    rw [open_] at hst
    cases hst

omit h hf in
theorem owner_of_unended {c : Call} (hu : c.unended = true) : c.owner = true := by
  obtain ⟨op, n, pc⟩ := c
  cases pc with
  | readCoordinator | readProducerId coord | readProducerEpoch coord pid | readStarted coord pid epoch => exact hu
  | failEnd err => rfl
  | retry r | asked r coord | rediscover r coord | answered r x =>
    cases r with
    | endTxn b p e => rfl
    | initProducerId p e => rfl
    | addPartitions tp p e => cases hu
    | addOffsets group p e => cases hu
  | _ => cases hu

omit hf in
/-- The others own nothing. -/
theorem Inv.not_owner (hc : s.calls[k]? = some c) (ho : c.owner = true) {j : Nat} {x : Call} (hne : j ≠ k)
    (hx : s.calls[j]? = some x) : x.owner = false := by
  by_contra hox
  exact hne (h.one j k x c hx hc ⟨Bool.eq_true_of_not_eq_false hox, ho⟩)

theorem Inv.endTxn (hc : s.calls[k]? = some c) (state : w'.handle.txnState = s.world.handle.txnState)
    (begun : w'.history.begun = s.world.history.begun)
    (ended : w'.history.ended = s.world.history.ended ++ [s.world.history.begun])
    (writes : w'.history.writes = s.world.history.writes) (fenced : w'.history.fenced = s.world.history.fenced)
    (was : c.unended = true) (txn : c'.txn = c.txn) (unended : c'.unended = false) (hasBegun : c'.hasBegun = false) :
    Inv ⟨w', s.calls.set k c'⟩ := by
  have hmem := List.mem_of_getElem? hc
  have howner := owner_of_unended was
  obtain ⟨hending, htxn⟩ := h.owner c hmem howner
  have hfresh := h.unended c hmem was
  refine ⟨mem_set h.fits hf, ?_, ?_, ?_, ?_, ?_, ?_, ?_, ?_, ?_, ?_⟩
  · exact h.one.set_mono hc (fun y hR => ⟨howner, hR.2⟩) fun y hR => ⟨hR.1, howner⟩
  · dsimp only
    rw [state, begun]
    exact mem_set h.owner fun _ => ⟨hending, txn.trans htxn⟩
  · rw [ended]
    exact h.once.append (List.nodup_singleton _) (List.disjoint_singleton.2 hfresh)
  · rw [ended, begun]
    intro n hn
    rcases List.mem_append.1 hn with hn | hn
    · exact h.past n hn
    · exact (List.mem_singleton.1 hn).le
  · rw [state]
    intro hopen
    rw [hopen] at hending
    cases hending
  · intro x hx hu
    obtain ⟨j, hj⟩ := List.mem_iff_getElem?.1 hx
    rcases getElem?_set_cases hj with ⟨-, rfl⟩ | ⟨hne, hold⟩
    · rw [unended] at hu
      cases hu
    · have hnot := h.not_owner hc howner hne hold
      rw [owner_of_unended hu] at hnot
      cases hnot
  · dsimp only
    rw [begun]
    refine mem_set h.begun fun hb => ?_
    rw [hasBegun] at hb
    cases hb
  · refine h.apart.set fun j y _ _ => ⟨fun hR => ?_, fun hR => ?_⟩
    · exact absurd hR.1 (by rw [hasBegun]; exact Bool.false_ne_true)
    · exact absurd hR.2.1 (by rw [hasBegun]; exact Bool.false_ne_true)
  · rw [writes]
    exact h.writes
  · rw [fenced, state]
    exact h.fenced

theorem Inv.write (hc : s.calls[k]? = some c) (wasOwner : c.owner = true)
    (begun : w'.history.begun = s.world.history.begun) (ended : w'.history.ended = s.world.history.ended)
    (writes : w'.history.writes = s.world.history.writes ++ [(c.txn, s.world.history.begun)])
    (fenced : w'.history.fenced = (s.world.history.fenced || w'.handle.txnState = .Fenced))
    (txn : c'.txn = c.txn) (owner : c'.owner = true → w'.handle.txnState.ending = true)
    (unended : c'.unended = false) (back : w'.handle.txnState = .InTransaction → c.unended = true)
    (hasBegun : c'.hasBegun = false) : Inv ⟨w', s.calls.set k c'⟩ := by
  have hmem := List.mem_of_getElem? hc
  obtain ⟨hending, htxn⟩ := h.owner c hmem wasOwner
  refine ⟨mem_set h.fits hf, ?_, ?_, ?_, ?_, ?_, ?_, ?_, ?_, ?_, ?_⟩
  · exact h.one.set_mono hc (fun y hR => ⟨wasOwner, hR.2⟩) fun y hR => ⟨hR.1, wasOwner⟩
  · intro x hx ho
    obtain ⟨j, hj⟩ := List.mem_iff_getElem?.1 hx
    dsimp only
    rw [begun]
    rcases getElem?_set_cases hj with ⟨-, rfl⟩ | ⟨hne, hold⟩
    · exact ⟨owner ho, txn.trans htxn⟩
    · rw [h.not_owner hc wasOwner hne hold] at ho
      cases ho
  · rw [ended]
    exact h.once
  · rw [ended, begun]
    exact h.past
  · rw [begun, ended]
    exact fun hopen => h.unended c hmem (back hopen)
  · dsimp only
    rw [begun, ended]
    refine mem_set h.unended fun hu => ?_
    rw [unended] at hu
    cases hu
  · dsimp only
    rw [begun]
    refine mem_set h.begun fun hb => ?_
    rw [hasBegun] at hb
    cases hb
  · refine h.apart.set fun j y _ _ => ⟨fun hR => ?_, fun hR => ?_⟩
    · exact absurd hR.1 (by rw [hasBegun]; exact Bool.false_ne_true)
    · exact absurd hR.2.1 (by rw [hasBegun]; exact Bool.false_ne_true)
  · rw [writes]
    intro e he
    rcases List.mem_append.1 he with he | he
    · exact h.writes e he
    · obtain rfl := List.mem_singleton.1 he
      exact htxn
  · rw [fenced]
    intro hfen
    rcases Bool.or_eq_true_iff.1 hfen with hold | hnew
    · have hst := h.fenced hold
      rw [hst] at hending
      cases hending
    · exact of_decide_eq_true hnew

end

theorem Inv.next {k : Nat} (h : Inv s) (hc : s.calls[k]? = some c) (hg : CallGuarded s.world c)
    (hn : next s.world c i = some (w', c')) : Inv ⟨w', s.calls.set k c'⟩ := by
  have hmem := List.mem_of_getElem? hc
  have hf := fits_of_next (h.fits c hmem) hn
  rcases lifecycle_of_next (h.fits c hmem) hg hn with
    ⟨hst, hb, he, hw, hfe, ho, hu, hh⟩ | ⟨hr, hst, hb, he, hw, hfe, htxn, ho, hu⟩ | ⟨hopen, hst, hh, htxn, -, hhb⟩ |
    ⟨hst, hb, he, hw, hfe, hwas, -, htxn, hu, hh⟩ | ⟨hwo, hb, he, hw, hfe, htxn, ho, hu, hback, hh⟩
  · exact h.quiet hf hc hst hb he hw hfe ho hu hh
  · exact h.begin hf hr hb he hw hfe htxn ho
  · exact h.own hf hopen hst hh htxn hhb
  · exact h.endTxn hf hc hst hb he hw hfe hwas htxn hu hh
  · exact h.write hf hc hwo hb he hw hfe htxn ho hu hback hh

/-- A new call has done nothing yet. -/
theorem Inv.call (h : Inv s) (op : Op) : Inv { s with calls := s.calls ++ [⟨op, 0, .start⟩] } := by
  have hb : Call.hasBegun ⟨op, 0, .start⟩ = false := Bool.and_false _
  have hall : ∀ {P : Call → Prop}, (∀ c ∈ s.calls, P c) → P ⟨op, 0, .start⟩ →
      ∀ c ∈ s.calls ++ [⟨op, 0, .start⟩], P c := by
    intro P hP hnew c hc
    rcases List.mem_append.1 hc with hc | hc
    · exact hP c hc
    · rw [List.mem_singleton.1 hc]
      exact hnew
  refine ⟨hall h.fits (Bool.or_true _), ?_, hall h.owner ?_, h.once, h.past, h.open_, hall h.unended ?_,
    hall h.begun ?_, ?_, h.writes, h.fenced⟩
  · refine h.one.append fun y _ => ⟨fun hR => ?_, fun hR => ?_⟩
    · exact absurd hR.1 Bool.false_ne_true
    · exact absurd hR.2 Bool.false_ne_true
  · exact fun ho => absurd ho Bool.false_ne_true
  · exact fun hu => absurd hu Bool.false_ne_true
  · exact fun hbegun => absurd (hb.symm.trans hbegun) Bool.false_ne_true
  · refine h.apart.append fun y _ => ⟨fun hR => ?_, fun hR => ?_⟩
    · exact absurd (hb.symm.trans hR.1) Bool.false_ne_true
    · exact absurd (hb.symm.trans hR.2.1) Bool.false_ne_true

/-- **One step**, of any thread. -/
theorem step_inv (h : Inv s) (hg : Guarded s e) (hs : step s e = some s') : Inv s' := by
  cases e with
  | call op =>
    cases hs
    exact h.call op
  | step k i =>
    obtain ⟨c, hc, hs⟩ := Option.bind_eq_some_iff.1 hs
    obtain ⟨⟨w', c'⟩, hn, rfl⟩ := Option.map_eq_some_iff.1 hs
    exact h.next hc (hg c hc) hn
  | markSendFailed =>
    cases hs
    exact ⟨h.fits, h.one, h.owner, h.once, h.past, h.open_, h.unended, h.begun, h.apart, h.writes, h.fenced⟩

/-! ## Runs -/

/-- What the application relies on. -/
structure LifecycleSafe (s : Sys) : Prop where
  /-- A transaction is ended by one `EndTxn` at most. -/
  ended_once : s.world.history.ended.Nodup
  /-- No two begins return for one transaction. -/
  begun_once : Apart SameTxn s.calls
  /-- A commit or abort writes the state of its own transaction. -/
  not_late : ∀ e ∈ s.world.history.writes, e.1 = e.2
  fenced : s.world.history.fenced = true → s.world.handle.txnState = .Fenced

/-- **The lifecycle is safe** along every run in which no move finds the state where it
    would take it, and no epoch bump fails after the end was accepted in a way that puts
    the transaction back. -/
theorem lifecycle_safe {st : TransactionState} {coord : Option TransactionCoordinator} {pid epoch : Option Int}
    {es : List Event} {s : Sys} (hrun : run step (Sys.init st coord pid epoch) es = some s)
    (hg : Along step Guarded (Sys.init st coord pid epoch) es) : LifecycleSafe s := by
  have h : Inv s := run_invariant (fun _ _ _ h hg hs => step_inv h hg hs) (inv_init st coord pid epoch) hg hrun
  exact ⟨h.once, h.apart, h.writes, h.fenced⟩

instance decidableCallGuarded (w : World) (c : Call) : Decidable (CallGuarded w c) := by
  unfold CallGuarded
  split
  · split <;> infer_instance
  · infer_instance
  · infer_instance

instance decidableGuarded (s : Sys) (e : Event) : Decidable (Guarded s e) := by
  cases e <;> unfold Guarded <;> infer_instance

def someCoordinator : TransactionCoordinator := ⟨1, "localhost", 9092⟩

/-- A call goes on `n` times. -/
def goOn (k n : Nat) : List Event := List.replicate n (.step k .go)

/-- A begin, a send that adds its partition, and a commit. -/
def beginSendCommit : List Event :=
  [.call .begin] ++ goOn 0 4 ++ [.call (.send (toLex ("t", 0)))] ++ goOn 1 5 ++
    [.step 1 (.answer (.ok (0, 0)) false)] ++ goOn 1 4 ++ [.call .commit] ++ goOn 2 8 ++
    [.step 2 (.answer (.ok (0, 0)) false)] ++ goOn 2 2

theorem lifecycle_safe_commit :
    (run step (Sys.init .Ready (some someCoordinator) (some 7) (some 0)) beginSendCommit).map
      (fun s => (s.world.handle.txnState, s.world.history.ended)) = some (.Ready, [1]) ∧
    ∀ s, run step (Sys.init .Ready (some someCoordinator) (some 7) (some 0)) beginSendCommit = some s →
      LifecycleSafe s :=
  ⟨by decide, fun _ hrun => lifecycle_safe hrun (by decide)⟩

/-- Two begins read the state, and then move it. -/
def twoBegins : List Event :=
  [.call .begin, .call .begin, .step 0 .go, .step 1 .go, .step 0 .go, .step 1 .go] ++ goOn 0 2 ++ goOn 1 2

/-- **Two begins that both return, for one transaction.** -/
theorem begun_twice : ∃ s, run step (Sys.init .Ready (some someCoordinator) (some 7) (some 0)) twoBegins = some s ∧
    ¬ LifecycleSafe s := by
  have hview : (run step (Sys.init .Ready (some someCoordinator) (some 7) (some 0)) twoBegins).map (fun s =>
      (s.calls[0]?.map fun c => (c.hasBegun, c.txn), s.calls[1]?.map fun c => (c.hasBegun, c.txn))) =
        some (some (true, 1), some (true, 1)) := by
    decide
  obtain ⟨s, hrun, hs⟩ := Option.map_eq_some_iff.1 hview
  obtain ⟨h0, h1⟩ := Prod.mk.inj hs
  obtain ⟨c0, hc0, he0⟩ := Option.map_eq_some_iff.1 h0
  obtain ⟨c1, hc1, he1⟩ := Option.map_eq_some_iff.1 h1
  obtain ⟨hb0, ht0⟩ := Prod.mk.inj he0
  obtain ⟨hb1, ht1⟩ := Prod.mk.inj he1
  exact ⟨s, hrun, fun h => absurd (h.begun_once 0 1 c0 c1 hc0 hc1 ⟨hb0, hb1, ht0.trans ht1.symm⟩) (by decide)⟩

end Wireform.Kafka.Transaction
