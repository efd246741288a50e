/-
  The count of requests in flight.

  `senderTotalInFlight` adds up a counter of each pipe.  A counter says how many
  rounds the pipe has, wherever they are (`PipeAt`), and a pipe that is in no pool
  has none (`Tracked`), as long as a pipe is reset and forgotten only when it and its
  pool are empty (`Accounted`).

  * `step_tracked`, `step_conserved`: one step;
  * `accounted_once`: over a run no callback runs twice, and all have run when the
    sender is idle;
  * `omitted_lost`: a batch that a response leaves out is lost.
-/
import Mathlib.Algebra.Order.BigOperators.Group.List
import Mathlib.Algebra.Order.Group.Int
import Wireform.Kafka.Sender.Accounting

namespace Wireform.Kafka.Sender

open Transition

variable {cfg : Config} {env : Env} {s s' t : SenderState} {i : PipeId} {js : List Job}

/-! ## The threads -/

/-- Jobs on batches, and then the given ones. -/
def Then (last js : List Job) : Prop := ∃ bs : List Job, (∀ j ∈ bs, j.isBatch = true) ∧ js = bs ++ last

/-- The writer of a pipe has so many rounds in hand. -/
inductive WriterAt (i : PipeId) : List Job → Nat → Prop
  | reads : WriterAt i [.writerRead i] 0
  | handsOff (bs : List ProducerBatch) : WriterAt i [.handOff i bs, .writerRead i] 1
  | gives {js : List Job} : Then [.countDown i, .writerRead i] js → WriterAt i js 1

/-- Its reader counts for so many rounds. -/
inductive ReaderAt (i : PipeId) : List Job → Nat → Prop
  | receives : ReaderAt i [.receive i] 0
  | answers {js : List Job} : Then [.countDown i, .receive i] js → ReaderAt i js 1
  | fails {js : List Job} {k : Nat} : Then [.resetCount i, .forget i] js →
      (k = 0 → js = [.resetCount i, .forget i]) → ReaderAt i js k
  | forgets : ReaderAt i [.forget i] 0
  | gone : ReaderAt i [] 0

/-- The jobs within a turn of the sender. -/
def Job.inTurn : Job → Bool
  | .loop | .notBusy => false
  | _ => true

/-- The sender is in its loop, or in one turn of it. -/
inductive SenderAt : Bool → List Job → Prop
  | loops : SenderAt false [.loop]
  | turns {js : List Job} : (∀ j ∈ js, j.inTurn = true) → SenderAt true (js ++ [.notBusy])

theorem Then.append {last js bs : List Job} (h : Then last js) (hbs : ∀ j ∈ bs, j.isBatch = true) :
    Then last (bs ++ js) := by
  obtain ⟨cs, hcs, rfl⟩ := h
  refine ⟨bs ++ cs, fun j hj => ?_, (List.append_assoc _ _ _).symm⟩
  rcases List.mem_append.1 hj with hj | hj
  · exact hbs j hj
  · exact hcs j hj

/-- After a job on a batch come the others and the last ones. -/
theorem Then.batch {a : Job} {last : List Job} (ha : a.isBatch = false) {j : Job} {rest : List Job}
    (h : Then (a :: last) (j :: rest)) (hj : j.isBatch = true) : Then (a :: last) rest := by
  obtain ⟨bs, hbs, he⟩ := h
  cases bs with
  | nil =>
    cases he
    rw [ha] at hj
    cases hj
  | cons b bs =>
    cases he
    exact ⟨bs, fun j hj => hbs j (List.mem_cons_of_mem _ hj), rfl⟩

/-- A job that is not on a batch is the first of the last ones. -/
theorem Then.last {a : Job} {last : List Job} {j : Job} {rest : List Job} (h : Then (a :: last) (j :: rest))
    (hj : j.isBatch = false) : j = a ∧ rest = last := by
  obtain ⟨bs, hbs, he⟩ := h
  cases bs with
  | nil =>
    cases he
    exact ⟨rfl, rfl⟩
  | cons b bs =>
    cases he
    have hb := hbs _ List.mem_cons_self
    rw [hj] at hb
    cases hb

/-- Jobs on batches leave the writer where it is. -/
theorem WriterAt.batch {j : Job} {rest bs : List Job} {w : Nat} (h : WriterAt i (j :: rest) w)
    (hj : j.isBatch = true) (hbs : ∀ j ∈ bs, j.isBatch = true) : WriterAt i (bs ++ rest) w := by
  cases h with
  | reads => cases hj
  | handsOff => cases hj
  | gives h => exact .gives ((h.batch rfl hj).append hbs)

theorem ReaderAt.batch {j : Job} {rest bs : List Job} {k : Nat} (h : ReaderAt i (j :: rest) k)
    (hj : j.isBatch = true) (hbs : ∀ j ∈ bs, j.isBatch = true) : ReaderAt i (bs ++ rest) k := by
  cases h with
  | receives => cases hj
  | answers h => exact .answers ((h.batch rfl hj).append hbs)
  | fails h hk =>
    refine .fails ((h.batch rfl hj).append hbs) fun h0 => ?_
    cases hk h0
    cases hj
  | forgets => cases hj

theorem WriterAt.held_zero (h : WriterAt i js 0) : heldBy js = 0 := by
  cases h
  rfl

theorem ReaderAt.held_zero (h : ReaderAt i js 0) : heldBy js = 0 := by
  cases h with
  | receives => rfl
  | fails _ hk =>
    rw [hk rfl]
    rfl
  | forgets => rfl
  | gone => rfl

/-- In a turn, a job makes way for the next ones. -/
theorem SenderAt.next {b : Bool} {j : Job} {rest new : List Job} (h : SenderAt b (j :: rest))
    (hj : j.inTurn = true) (hnew : ∀ j ∈ new, j.inTurn = true) : SenderAt b (new ++ rest) := by
  generalize hjs : j :: rest = js at h
  cases h with
  | loops =>
    cases hjs
    cases hj
  | @turns ks hks =>
    cases ks with
    | nil =>
      cases hjs
      cases hj
    | cons k ks =>
      cases hjs
      show SenderAt true (new ++ (ks ++ [.notBusy]))
      rw [← List.append_assoc]
      refine .turns fun j hj => ?_
      rcases List.mem_append.1 hj with hj | hj
      · exact hnew j hj
      · exact hks j (List.mem_cons_of_mem _ hj)

/-- The first job and the last job of a turn are followed by none. -/
theorem SenderAt.alone {b : Bool} {j : Job} {rest : List Job} (h : SenderAt b (j :: rest))
    (hj : j.inTurn = false) : rest = [] := by
  generalize hjs : j :: rest = js at h
  cases h with
  | loops =>
    cases hjs
    rfl
  | @turns ks hks =>
    cases ks with
    | nil =>
      cases hjs
      rfl
    | cons k ks =>
      cases hjs
      have hk := hks _ List.mem_cons_self
      rw [hj] at hk
      cases hk

/-! ## The counters -/

/-- The rounds that the sender is about to put in the outbox of a pipe. -/
def writesTo (i : PipeId) (js : List Job) : Nat :=
  js.countP fun j => match j with
    | .write pipe _ => pipe = i
    | _ => false

attribute [grind =] writesTo

/-- The counter of a pipe says how many rounds it has, with `n` still to be put in its
    outbox. -/
def PipeAt (n : Nat) (i : PipeId) (p : Pipe) : Prop :=
  ∃ w k, WriterAt i p.writer w ∧ ReaderAt i p.reader k ∧
    p.bpInFlightCount = (p.outbox.length + p.inFlight.length + w + k + n : Nat)

/-- The pipe is in a pool. -/
def Registered (s : SenderState) (i : PipeId) : Prop := ∃ e ∈ s.senderBrokerPipes, i ∈ e.2

structure Tracked (s : SenderState) : Prop where
  sender : SenderAt s.senderBusy s.sender
  pipe : ∀ i p, s.pipes[i]? = some p → PipeAt (writesTo i s.sender) i p
  job : ∀ j ∈ s.sender, ∀ i, j.pipe = some i → Registered s i
  known : ∀ i, Registered s i → i < s.pipes.length
  filled : ∀ e ∈ s.senderBrokerPipes, e.2 ≠ []
  forgotten : ∀ i p, s.pipes[i]? = some p → ¬ Registered s i → p.bpInFlightCount = 0

/-- The responses name every partition of their requests once, a counter is reset when
    its pipe has nothing, and a pool is forgotten when none of its pipes has anything. -/
def Accounted (s : SenderState) : Event → Prop
  | .run (.reader i) env => ∀ p ∈ s.pipes[i]?, ∀ j ∈ p.reader.head?, Replied env p j ∧
      (j = .resetCount i → p.outbox = [] ∧ p.inFlight = [] ∧ p.writer = [.writerRead i] ∧ writesTo i s.sender = 0) ∧
      (j = .forget i → ∀ e ∈ s.senderBrokerPipes, e.1 = p.bpAddr → ∀ k ∈ e.2,
        (∀ q ∈ s.pipes[k]?, q.bpInFlightCount = 0) ∧ ∀ j ∈ s.sender, j.pipe ≠ some k)
  | _ => True

theorem PipeAt.nonneg {n : Nat} {p : Pipe} (h : PipeAt n i p) : 0 ≤ p.bpInFlightCount := by
  obtain ⟨w, k, -, -, hcount⟩ := h
  rw [hcount]
  exact Int.natCast_nonneg _

/-- A pipe with a count of zero has nothing. -/
theorem PipeAt.held_zero {n : Nat} {p : Pipe} (h : PipeAt n i p) (h0 : p.bpInFlightCount = 0) : p.held = 0 := by
  obtain ⟨w, k, hw, hk, hcount⟩ := h
  rw [h0] at hcount
  have hout : p.outbox = [] := List.length_eq_zero_iff.1 (by omega)
  have hin : p.inFlight = [] := List.length_eq_zero_iff.1 (by omega)
  have hw0 : w = 0 := by omega
  have hk0 : k = 0 := by omega
  rw [hw0] at hw
  rw [hk0] at hk
  unfold Pipe.held
  rw [hout, hin, hw.held_zero, hk.held_zero]
  rfl

theorem writesTo_append (i : PipeId) (js js' : List Job) :
    writesTo i (js ++ js') = writesTo i js + writesTo i js' := List.countP_append

theorem writesTo_cons (i : PipeId) (j : Job) (js : List Job) :
    writesTo i (j :: js) = writesTo i [j] + writesTo i js := writesTo_append i [j] js

theorem writesTo_zero (h : ∀ j ∈ js, j.pipe ≠ some i) : writesTo i js = 0 := by
  refine List.countP_eq_zero.2 fun j hj hw => ?_
  cases j with
  | write pipe valid => exact h _ hj (congrArg some (of_decide_eq_true hw))
  | _ => cases hw

theorem isBatch_pipe {j : Job} (h : j.isBatch = true) : j.pipe = none := by
  cases j with
  | retryOrFail => rfl
  | enqueueRetry => rfl
  | failBatch => rfl
  | succeed => rfl
  | _ => cases h

/-! ## One step -/

/-- A step of a pipe, which is left with a count that fits. -/
theorem Tracked.pipeStep (h : Tracked s) {p : Pipe} {f : Pipe → Pipe} (hp : s.pipes[i]? = some p)
    (hpipes : t.pipes = s.pipes.modify i f) (hsender : t.sender = s.sender) (hbusy : t.senderBusy = s.senderBusy)
    (hbrokers : t.senderBrokerPipes = s.senderBrokerPipes) (hat : PipeAt (writesTo i s.sender) i (f p))
    (hle : (f p).bpInFlightCount ≤ p.bpInFlightCount) : Tracked t := by
  have hreg : ∀ k, Registered t k ↔ Registered s k := fun k => by
    unfold Registered
    rw [hbrokers]
  refine ⟨by rw [hbusy, hsender]; exact h.sender, fun k q hq => ?_, fun j hj k hk => ?_, fun k hk => ?_,
    by rw [hbrokers]; exact h.filled, fun k q hq hk => ?_⟩
  · rw [hsender]
    by_cases hik : i = k
    · subst hik
      rw [hpipes, List.getElem?_modify_eq, hp] at hq
      cases hq
      exact hat
    · rw [hpipes, List.getElem?_modify_ne _ _ hik] at hq
      exact h.pipe k q hq
  · rw [hsender] at hj
    exact (hreg k).2 (h.job j hj k hk)
  · rw [hpipes, List.length_modify]
    exact h.known k ((hreg k).1 hk)
  · rw [hreg] at hk
    by_cases hik : i = k
    · subst hik
      rw [hpipes, List.getElem?_modify_eq, hp] at hq
      cases hq
      rw [h.forgotten i p hp hk] at hle
      exact le_antisymm hle hat.nonneg
    · rw [hpipes, List.getElem?_modify_ne _ _ hik] at hq
      exact h.forgotten k q hq hk

/-- A step of the sender in its turn. -/
theorem Tracked.senderStep (h : Tracked s) {j : Job} {rest new : List Job} (hs : s.sender = j :: rest)
    (hj : j.inTurn = true) (hnew : ∀ j ∈ new, j.inTurn = true)
    (hbusy : t.senderBusy = s.senderBusy) (hreg : ∀ k, Registered s k → Registered t k)
    (hknown : ∀ k, Registered t k → k < t.pipes.length) (hfilled : ∀ e ∈ t.senderBrokerPipes, e.2 ≠ [])
    (hjob : ∀ j ∈ new, ∀ k, j.pipe = some k → Registered t k)
    (hpipe : ∀ k p, t.pipes[k]? = some p → PipeAt (writesTo k (new ++ rest)) k p)
    (hforgotten : ∀ k p, t.pipes[k]? = some p → ¬ Registered t k → p.bpInFlightCount = 0) :
    Tracked { t with sender := new ++ rest } := by
  have hat := h.sender
  rw [hs, ← hbusy] at hat
  refine ⟨hat.next hj hnew, hpipe, fun j' hj' k hk => ?_, hknown, hfilled, hforgotten⟩
  rcases List.mem_append.1 hj' with hj' | hj'
  · exact hjob j' hj' k hk
  · exact hreg k (h.job j' (by rw [hs]; exact List.mem_cons_of_mem _ hj') k hk)

/-- The sender's job leaves the pipes and the pools alone. -/
theorem Tracked.senderQuiet (h : Tracked s) {j : Job} {rest new : List Job} (hs : s.sender = j :: rest)
    (hj : j.inTurn = true) (hnew : ∀ j ∈ new, j.inTurn = true)
    (hbusy : t.senderBusy = s.senderBusy) (hbrokers : t.senderBrokerPipes = s.senderBrokerPipes)
    (hpipes : t.pipes = s.pipes) (hjob : ∀ j' ∈ new, ∀ k, j'.pipe = some k → Registered s k)
    (hwrites : ∀ k, writesTo k new = writesTo k [j]) : Tracked { t with sender := new ++ rest } := by
  have hreg : ∀ k, Registered t k ↔ Registered s k := fun k => by
    unfold Registered
    rw [hbrokers]
  refine h.senderStep hs hj hnew hbusy (fun k => (hreg k).2) (fun k hk => ?_)
    (by rw [hbrokers]; exact h.filled) (fun j' hj' k hk => (hreg k).2 (hjob j' hj' k hk)) (fun k p hp => ?_) (fun k p hp hk => ?_)
  · rw [hpipes]
    exact h.known k ((hreg k).1 hk)
  · rw [hpipes] at hp
    rw [writesTo_append, hwrites k, ← writesTo_cons, ← hs]
    exact h.pipe k p hp
  · rw [hpipes] at hp
    exact h.forgotten k p hp fun hr => hk ((hreg k).2 hr)

/-- Nor is it on a pipe, nor are the next ones. -/
theorem Tracked.senderPlain (h : Tracked s) {j : Job} {rest new : List Job} (hs : s.sender = j :: rest)
    (hj : j.inTurn = true) (hpipe : j.pipe = none) (hnew : ∀ j ∈ new, j.inTurn = true ∧ j.pipe = none)
    (hbusy : t.senderBusy = s.senderBusy) (hbrokers : t.senderBrokerPipes = s.senderBrokerPipes)
    (hpipes : t.pipes = s.pipes) : Tracked { t with sender := new ++ rest } := by
  have hnone : ∀ j' ∈ new, ∀ k, j'.pipe ≠ some k := by
    intro j' hj' k hk
    rw [(hnew j' hj').2] at hk
    cases hk
  refine h.senderQuiet hs hj (fun j' hj' => (hnew j' hj').1) hbusy hbrokers hpipes
    (fun j' hj' k hk => absurd hk (hnone j' hj' k)) fun k => ?_
  rw [writesTo_zero fun j' hj' => hnone j' hj' k, writesTo_zero (List.forall_mem_singleton.2 fun hk => ?_)]
  rw [hpipe] at hk
  cases hk

theorem isBatch_inTurn {j : Job} (h : j.isBatch = true) : j.inTurn = true := by
  cases j with
  | loop => cases h
  | notBusy => cases h
  | _ => rfl

/-- A job of the sender on a batch. -/
theorem Tracked.senderBatch (h : Tracked s) {j : Job} {rest : List Job} {r : SenderState × List Job}
    (hs : s.sender = j :: rest) (hr : runBatch cfg env s j = some r) :
    Tracked { r.1 with sender := r.2 ++ rest } := by
  obtain ⟨hsame, hj, hnew⟩ := runBatch_unmoved hr
  exact h.senderPlain hs (isBatch_inTurn hj) (isBatch_pipe hj)
    (fun j' hj' => ⟨isBatch_inTurn (hnew j' hj'), isBatch_pipe (hnew j' hj')⟩) hsame.busy hsame.brokers hsame.pipes

/-- Every round goes to a pipe of the pool. -/
theorem mem_poolRounds {cfg : Config} {ids : List PipeId} {bs : List ProducerBatch} (hids : ids ≠ []) {j : Job}
    (hj : j ∈ poolRounds cfg ids bs) : ∃ i r, j = .round i r ∧ i ∈ ids := by
  obtain ⟨e, he, hje⟩ := List.mem_flatMap.1 hj
  obtain ⟨r, hr, rfl⟩ := List.mem_map.1 hje
  refine ⟨_, r, rfl, ?_⟩
  have hvalues := eq_valuesOf_of_mem he
  cases hbs : e.2 with
  | nil =>
    rw [hbs] at hr
    cases hr
  | cons b l =>
    have hb : b ∈ valuesOf e.1 (bs.map fun b => (cfg.hash b.batchTopicPartition % ids.length, b)) := by
      rw [← hvalues, hbs]
      exact List.mem_cons_self
    obtain ⟨x, hx, -⟩ := List.mem_map.1 hb
    obtain ⟨hin, hkey⟩ := List.mem_filter.1 hx
    obtain ⟨b', -, rfl⟩ := List.mem_map.1 hin
    have hlt : e.1 < ids.length := by
      rw [← of_decide_eq_true hkey]
      exact Nat.mod_lt _ (List.length_pos_of_ne_nil hids)
    rw [List.getD_eq_getElem?_getD, List.getElem?_eq_getElem hlt]
    exact List.getElem_mem hlt

theorem writesTo_poolRounds {cfg : Config} {ids : List PipeId} {bs : List ProducerBatch} (hids : ids ≠ [])
    (k : PipeId) : writesTo k (poolRounds cfg ids bs) = 0 := by
  refine List.countP_eq_zero.2 fun j hj => ?_
  obtain ⟨i, r, rfl, -⟩ := mem_poolRounds hids hj
  exact nofun

/-- The rounds of a pool that is there are put before the rest. -/
theorem Tracked.pool (h : Tracked s) {broker : Broker} {batches : List ProducerBatch} {ids : List PipeId}
    {rest : List Job} (hs : s.sender = .pool broker batches :: rest)
    (hids : AssocMap.lookup broker s.senderBrokerPipes = some ids) :
    Tracked { s with sender := poolRounds cfg ids batches ++ rest } := by
  have hmem := AssocMap.mem_of_lookup hids
  have hne := h.filled _ hmem
  refine h.senderQuiet hs rfl (fun j hj => ?_) rfl rfl rfl (fun j hj k hk => ?_) fun k => ?_
  · obtain ⟨i, r, rfl, -⟩ := mem_poolRounds hne hj
    rfl
  · obtain ⟨i, r, rfl, hi⟩ := mem_poolRounds hne hj
    cases hk
    exact ⟨_, hmem, hi⟩
  · rw [writesTo_poolRounds hne]
    rfl

theorem openPool_ids (cfg : Config) (s : SenderState) (broker : Broker) : (openPool cfg s broker).1 =
    (List.range (max 1 cfg.senderConnsPerBroker)).map (s.pipes.length + ·) := rfl

/-- A pool that is opened has new pipes, with nothing in them. -/
theorem openPool_pipe {broker : Broker} {k : PipeId} {p : Pipe} (hp : (openPool cfg s broker).2.pipes[k]? = some p) :
    s.pipes[k]? = some p ∨ (s.pipes.length ≤ k ∧ k ∈ (openPool cfg s broker).1 ∧ p = newPipe broker k) := by
  have hpipes : (openPool cfg s broker).2.pipes = s.pipes ++ (openPool cfg s broker).1.map (newPipe broker) := rfl
  rw [hpipes] at hp
  by_cases hk : k < s.pipes.length
  · rw [List.getElem?_append_left hk] at hp
    exact Or.inl hp
  · have hle := Nat.le_of_not_lt hk
    rw [List.getElem?_append_right hle, List.getElem?_map, Option.map_eq_some_iff] at hp
    obtain ⟨a, ha, rfl⟩ := hp
    have hmem := List.mem_of_getElem? ha
    rw [openPool_ids, List.getElem?_map, Option.map_eq_some_iff] at ha
    obtain ⟨m, hm, rfl⟩ := ha
    obtain ⟨hlt, rfl⟩ := List.getElem?_eq_some_iff.1 hm
    rw [List.getElem_range, Nat.add_sub_cancel' hle] at hmem ⊢
    exact Or.inr ⟨hle, hmem, rfl⟩

theorem openPool_known {broker : Broker} {k : PipeId} (hk : k ∈ (openPool cfg s broker).1) :
    k < (openPool cfg s broker).2.pipes.length := by
  have hlen : (openPool cfg s broker).2.pipes.length = s.pipes.length + (openPool cfg s broker).1.length := by
    unfold openPool
    rw [List.length_append, List.length_map]
  rw [openPool_ids] at hk
  obtain ⟨m, hm, rfl⟩ := List.mem_map.1 hk
  rw [hlen, openPool_ids, List.length_map, List.length_range]
  have hm' := List.mem_range.1 hm
  show s.pipes.length + m < _
  omega

theorem Tracked.opened (h : Tracked s) {broker : Broker} {batches : List ProducerBatch} {rest : List Job}
    (hs : s.sender = .pool broker batches :: rest)
    (hnone : AssocMap.lookup broker s.senderBrokerPipes = none) :
    Tracked { (openPool cfg s broker).2 with
      sender := poolRounds cfg (openPool cfg s broker).1 batches ++ rest } := by
  have hne : (openPool cfg s broker).1 ≠ [] := by
    intro hnil
    have hlen := List.length_eq_zero_iff.2 hnil
    rw [openPool_ids, List.length_map, List.length_range] at hlen
    omega
  have hbrokers : ∀ e, e ∈ (openPool cfg s broker).2.senderBrokerPipes ↔
      e = (broker, (openPool cfg s broker).1) ∨ e ∈ s.senderBrokerPipes :=
    AssocMap.mem_insert_of_lookup_none hnone
  have hold : ∀ k, Registered s k → Registered (openPool cfg s broker).2 k := by
    rintro k ⟨e, he, hk⟩
    exact ⟨e, (hbrokers e).2 (Or.inr he), hk⟩
  have hnew : ∀ k ∈ (openPool cfg s broker).1, Registered (openPool cfg s broker).2 k :=
    fun k hk => ⟨_, (hbrokers _).2 (Or.inl rfl), hk⟩
  have hlen : s.pipes.length ≤ (openPool cfg s broker).2.pipes.length := by
    unfold openPool
    rw [List.length_append]
    exact Nat.le_add_right _ _
  have hwrites : ∀ k, writesTo k (poolRounds cfg (openPool cfg s broker).1 batches ++ rest) =
      writesTo k s.sender := by
    intro k
    rw [writesTo_append, writesTo_poolRounds hne, hs, writesTo_cons]
    rfl
  refine h.senderStep hs rfl (fun j hj => ?_) rfl hold (fun k hk => ?_) (fun e he => ?_)
    (fun j hj k hk => ?_) (fun k p hp => ?_) fun k p hp hk => ?_
  · obtain ⟨i, r, rfl, -⟩ := mem_poolRounds hne hj
    rfl
  · obtain ⟨e, he, hke⟩ := hk
    rcases (hbrokers e).1 he with rfl | he
    · exact openPool_known hke
    · exact lt_of_lt_of_le (h.known k ⟨e, he, hke⟩) hlen
  · rcases (hbrokers e).1 he with rfl | he
    · exact hne
    · exact h.filled e he
  · obtain ⟨i, r, rfl, hi⟩ := mem_poolRounds hne hj
    cases hk
    exact hnew _ hi
  · rw [hwrites]
    rcases openPool_pipe hp with hp | ⟨hle, -, rfl⟩
    · exact h.pipe k p hp
    · have hzero : writesTo k s.sender = 0 := writesTo_zero fun j hj hjk =>
        absurd (h.known k (h.job j hj k hjk)) (Nat.not_lt.2 hle)
      rw [hzero]
      exact ⟨0, 0, .reads, .receives, rfl⟩
  · rcases openPool_pipe hp with hp | ⟨-, hin, rfl⟩
    · exact h.forgotten k p hp fun hr => hk (hold k hr)
    · rfl

/-- A counter is raised before its round is put in the outbox. -/
theorem Tracked.counted (h : Tracked s) {valid : List ProducerBatch} {rest : List Job}
    (hs : s.sender = .count i valid :: rest) :
    Tracked { modifyPipe s i fun p => { p with bpInFlightCount := p.bpInFlightCount + 1 } with
      sender := [.write i valid] ++ rest } := by
  have hreg : Registered s i := h.job _ (by rw [hs]; exact List.mem_cons_self) i rfl
  have hpipes : (modifyPipe s i fun p => { p with bpInFlightCount := p.bpInFlightCount + 1 }).pipes =
      s.pipes.modify i fun p => { p with bpInFlightCount := p.bpInFlightCount + 1 } := rfl
  refine h.senderStep hs rfl (List.forall_mem_singleton.2 rfl) rfl (fun k hk => hk) (fun k hk => ?_) h.filled
    (fun j hj k hk => ?_) (fun k p hp => ?_) fun k p hp hk => ?_
  · rw [hpipes, List.length_modify]
    exact h.known k hk
  · cases List.mem_singleton.1 hj
    cases hk
    exact hreg
  · rw [hpipes] at hp
    by_cases hik : i = k
    · subst hik
      rw [List.getElem?_modify_eq] at hp
      obtain ⟨q, hq, rfl⟩ := Option.map_eq_some_iff.1 hp
      obtain ⟨w, m, hw, hm, hcount⟩ := h.pipe i q hq
      have hone : writesTo i [Job.write i valid] = 1 := by simp [writesTo]
      have hzero : writesTo i [Job.count i valid] = 0 := rfl
      rw [hs, writesTo_cons, hzero] at hcount
      refine ⟨w, m, hw, hm, ?_⟩
      show q.bpInFlightCount + 1 = (q.outbox.length + q.inFlight.length + w + m + _ : Nat)
      rw [writesTo_append, hone, hcount]
      omega
    · rw [List.getElem?_modify_ne _ _ hik] at hp
      have hzero : writesTo k [Job.write i valid] = 0 := writesTo_zero fun j hj hjk => by
        cases List.mem_singleton.1 hj
        exact hik (Option.some.inj hjk)
      have hat := h.pipe k p hp
      rw [hs, writesTo_cons] at hat
      rw [writesTo_append, hzero]
      exact hat
  · rw [hpipes] at hp
    by_cases hik : i = k
    · subst hik
      exact absurd hreg hk
    · rw [List.getElem?_modify_ne _ _ hik] at hp
      exact h.forgotten k p hp hk

/-- A round is put in the outbox. -/
theorem Tracked.written (h : Tracked s) {valid : List ProducerBatch} {rest : List Job}
    (hs : s.sender = .write i valid :: rest) :
    Tracked { modifyPipe s i fun p => { p with outbox := p.outbox ++ [valid] } with sender := [] ++ rest } := by
  have hpipes : (modifyPipe s i fun p => { p with outbox := p.outbox ++ [valid] }).pipes =
      s.pipes.modify i fun p => { p with outbox := p.outbox ++ [valid] } := rfl
  have hone : writesTo i [Job.write i valid] = 1 := by simp [writesTo]
  refine h.senderStep hs rfl (List.forall_mem_nil _) rfl (fun k hk => hk) (fun k hk => ?_) h.filled
    (List.forall_mem_nil _) (fun k p hp => ?_) fun k p hp hk => ?_
  · rw [hpipes, List.length_modify]
    exact h.known k hk
  · rw [hpipes] at hp
    by_cases hik : i = k
    · subst hik
      rw [List.getElem?_modify_eq] at hp
      obtain ⟨q, hq, rfl⟩ := Option.map_eq_some_iff.1 hp
      obtain ⟨w, m, hw, hm, hcount⟩ := h.pipe i q hq
      rw [hs, writesTo_cons, hone] at hcount
      refine ⟨w, m, hw, hm, ?_⟩
      show q.bpInFlightCount = ((q.outbox ++ [valid]).length + q.inFlight.length + w + m + _ : Nat)
      rw [hcount, List.length_append, List.nil_append, List.length_singleton]
      omega
    · rw [List.getElem?_modify_ne _ _ hik] at hp
      have hzero : writesTo k [Job.write i valid] = 0 := writesTo_zero fun j hj hjk => by
        cases List.mem_singleton.1 hj
        exact hik (Option.some.inj hjk)
      have hat := h.pipe k p hp
      rwa [hs, writesTo_cons, hzero, Nat.zero_add] at hat
  · rw [hpipes] at hp
    by_cases hik : i = k
    · subst hik
      rw [List.getElem?_modify_eq] at hp
      obtain ⟨q, hq, rfl⟩ := Option.map_eq_some_iff.1 hp
      exact h.forgotten i q hq hk
    · rw [List.getElem?_modify_ne _ _ hik] at hp
      exact h.forgotten k p hp hk

theorem runSender_tracked (h : Tracked s) {j : Job} {rest : List Job} {r : SenderState × List Job}
    (hs : s.sender = j :: rest) (hr : runSender cfg env s j = some r) : Tracked { r.1 with sender := r.2 ++ rest } := by
  cases j with
  | loop =>
    cases hr
    have hat := h.sender
    rw [hs] at hat
    have hrest := hat.alone rfl
    have hquiet : ∀ k, writesTo k s.sender = 0 := by
      intro k
      rw [hs, hrest]
      rfl
    rw [hrest]
    refine ⟨@SenderAt.turns [.poll] (List.forall_mem_singleton.2 rfl), fun k p hp => ?_, fun j hj k hk => ?_,
      h.known, h.filled, h.forgotten⟩
    · have hat := h.pipe k p hp
      rw [hquiet] at hat
      exact hat
    · rcases List.mem_cons.1 hj with rfl | hj
      · cases hk
      · cases List.mem_singleton.1 hj
        cases hk
  | notBusy =>
    cases hr
    have hat := h.sender
    rw [hs] at hat
    have hrest := hat.alone rfl
    have hquiet : ∀ k, writesTo k s.sender = 0 := by
      intro k
      rw [hs, hrest]
      rfl
    rw [hrest]
    refine ⟨.loops, fun k p hp => ?_, fun j hj k hk => ?_, h.known, h.filled, h.forgotten⟩
    · have hat := h.pipe k p hp
      rw [hquiet] at hat
      exact hat
    · cases List.mem_singleton.1 hj
      cases hk
  | poll =>
    cases hr
    exact h.senderPlain hs rfl rfl (List.forall_mem_singleton.2 ⟨rfl, rfl⟩) rfl rfl rfl
  | takeDue hasReady =>
    cases hr
    refine h.senderPlain hs rfl rfl (fun j hj => ?_) rfl rfl rfl
    split at hj
    · cases List.mem_singleton.1 hj
      exact ⟨rfl, rfl⟩
    · cases hj
  | drain hasReady due =>
    simp only [runSender] at hr
    split at hr
    · cases hr
      exact h.senderPlain hs rfl rfl (List.forall_mem_singleton.2 ⟨rfl, rfl⟩) rfl rfl rfl
    · cases hr
      exact h.senderPlain hs rfl rfl (List.forall_mem_singleton.2 ⟨rfl, rfl⟩) rfl rfl rfl
  | hold due fresh =>
    cases hr
    exact h.senderPlain hs rfl rfl (List.forall_mem_singleton.2 ⟨rfl, rfl⟩) rfl rfl rfl
  | group todo known unknown =>
    cases todo with
    | nil =>
      cases hr
      refine h.senderPlain hs rfl rfl (fun j hj => ?_) rfl rfl rfl
      rcases List.mem_append.1 hj with hj | hj
      · obtain ⟨b, -, rfl⟩ := List.mem_map.1 hj
        exact ⟨rfl, rfl⟩
      · obtain ⟨e, -, rfl⟩ := List.mem_map.1 hj
        exact ⟨rfl, rfl⟩
    | cons b todo =>
      simp only [runSender] at hr
      split at hr
      · cases hr
        exact h.senderPlain hs rfl rfl (List.forall_mem_singleton.2 ⟨rfl, rfl⟩) rfl rfl rfl
      · cases hr
        exact h.senderPlain hs rfl rfl (List.forall_mem_singleton.2 ⟨rfl, rfl⟩) rfl rfl rfl
  | pool broker batches =>
    simp only [runSender] at hr
    split at hr
    · rename_i ids hids
      cases hr
      exact h.pool hs hids
    · rename_i hnone
      split at hr
      · cases hr
        exact h.opened hs hnone
      · cases hr
        refine h.senderPlain hs rfl rfl (fun j hj => ?_) rfl rfl rfl
        obtain ⟨b, -, rfl⟩ := List.mem_map.1 hj
        exact ⟨rfl, rfl⟩
  | round pipe batches =>
    cases hr
    have hreg : Registered s pipe := h.job _ (by rw [hs]; exact List.mem_cons_self) pipe rfl
    refine h.senderQuiet hs rfl (fun j hj => ?_) rfl rfl rfl (fun j hj k hk => ?_) fun k => ?_
    · split at hj
      · cases hj
      · cases List.mem_singleton.1 hj
        rfl
    · split at hj
      · cases hj
      · cases List.mem_singleton.1 hj
        cases hk
        exact hreg
    · split
      · rfl
      · rfl
  | count pipe valid =>
    cases hr
    exact h.counted hs
  | write pipe valid =>
    simp only [runSender] at hr
    split at hr
    · split at hr
      · cases hr
        exact h.written hs
      · cases hr
    · cases hr
  | _ => cases hr

theorem modifyPipe_modifyPipe (s : SenderState) (i : PipeId) (f g : Pipe → Pipe) :
    (modifyPipe (modifyPipe s i f) i g).pipes = s.pipes.modify i (g ∘ f) := List.modify_modify_eq _ _ _ _

theorem then_map {f : ProducerBatch → Job} (hf : ∀ b, (f b).isBatch = true) (bs : List ProducerBatch)
    (last : List Job) : Then last (bs.map f ++ last) := by
  refine ⟨bs.map f, fun j hj => ?_, rfl⟩
  obtain ⟨b, -, rfl⟩ := List.mem_map.1 hj
  exact hf b

theorem outcome_isBatch (r : PartitionResponse) (b : ProducerBatch) : (outcome r b).isBatch = true := by
  unfold outcome
  split
  · rfl
  · split
    · rfl
    · rfl

theorem then_processProduceResponse (batches : List ProducerBatch) (parts : List PartitionResponse)
    (last : List Job) : Then last (processProduceResponse batches parts ++ last) := by
  refine ⟨_, fun j hj => ?_, rfl⟩
  obtain ⟨r, -, hr⟩ := List.mem_flatMap.1 hj
  obtain ⟨b, -, rfl⟩ := List.mem_map.1 hr
  exact outcome_isBatch r b

/-- A writer's job that is not on a batch. -/
theorem writer_tracked (h : Tracked s) {p : Pipe} {j : Job} {rest : List Job} {r : SenderState × List Job}
    (hp : s.pipes[i]? = some p) (hs : p.writer = j :: rest) (hr : runPipe env s p j = some r) :
    Tracked (modifyPipe r.1 i fun p => { p with writer := r.2 ++ rest }) := by
  obtain ⟨w, k, hw, hk, hcount⟩ := h.pipe i p hp
  rw [hs] at hw
  cases hw with
  | reads =>
    simp only [runPipe] at hr
    split at hr
    · cases hr
    · rename_i out outs hout
      cases hr
      rw [hout] at hcount
      refine h.pipeStep hp (modifyPipe_modifyPipe _ _ _ _) rfl rfl rfl ⟨1, k, ?_, hk, ?_⟩ (le_refl _)
      · split
        · exact .handsOff out
        · rw [List.append_nil]
          exact .gives (then_map (fun b => rfl) out _)
      · show p.bpInFlightCount = (outs.length + p.inFlight.length + 1 + k + _ : Nat)
        rw [hcount, List.length_cons]
        omega
  | handsOff bs =>
    cases hr
    refine h.pipeStep hp (modifyPipe_modifyPipe _ _ _ _) rfl rfl rfl ⟨0, k, .reads, hk, ?_⟩ (le_refl _)
    show p.bpInFlightCount = (p.outbox.length + (p.inFlight ++ [bs]).length + 0 + k + _ : Nat)
    rw [hcount, List.length_append, List.length_singleton]
    omega
  | gives hthen =>
    obtain ⟨rfl, rfl⟩ := hthen.last (runPipe_pipe hr).2
    cases hr
    refine h.pipeStep hp (modifyPipe_modifyPipe _ _ _ _) rfl rfl rfl ⟨0, k, .reads, hk, ?_⟩ ?_
    · show p.bpInFlightCount - 1 = (p.outbox.length + p.inFlight.length + 0 + k + _ : Nat)
      omega
    · show p.bpInFlightCount - 1 ≤ p.bpInFlightCount
      omega

/-- A broker's pool is forgotten when its pipes have nothing. -/
theorem Tracked.forget (h : Tracked s) {p : Pipe} (hp : s.pipes[i]? = some p) (hs : p.reader = [.forget i])
    (hempty : ∀ e ∈ s.senderBrokerPipes, e.1 = p.bpAddr → ∀ k ∈ e.2,
      (∀ q ∈ s.pipes[k]?, q.bpInFlightCount = 0) ∧ ∀ j ∈ s.sender, j.pipe ≠ some k) :
    Tracked (modifyPipe (forgetPool s p.bpAddr) i fun p => { p with reader := [] }) := by
  have hgone : Tracked (modifyPipe s i fun p => { p with reader := [] }) := by
    obtain ⟨w, k, hw, hk, hcount⟩ := h.pipe i p hp
    rw [hs] at hk
    have hk0 : k = 0 := by
      cases hk with
      | answers hthen => exact absurd (hthen.last rfl).1 nofun
      | fails hthen _ => exact absurd (hthen.last rfl).1 nofun
      | forgets => rfl
    rw [hk0] at hcount
    exact h.pipeStep hp rfl rfl rfl rfl ⟨w, 0, hw, .gone, hcount⟩ (le_refl _)
  have hkeep : ∀ k, Registered s k → (∃ j ∈ s.sender, j.pipe = some k) →
      Registered (modifyPipe (forgetPool s p.bpAddr) i fun p => { p with reader := [] }) k := by
    rintro k ⟨e, he, hke⟩ ⟨j, hj, hjk⟩
    refine ⟨e, List.mem_filter.2 ⟨he, ?_⟩, hke⟩
    rw [decide_eq_true_iff]
    intro haddr
    exact (hempty e he haddr k hke).2 j hj hjk
  have hold : ∀ k, Registered (modifyPipe (forgetPool s p.bpAddr) i fun p => { p with reader := [] }) k →
      Registered s k := by
    rintro k ⟨e, he, hke⟩
    exact ⟨e, (List.mem_filter.1 he).1, hke⟩
  refine ⟨hgone.sender, hgone.pipe, fun j hj k hk => hkeep k (h.job j hj k hk) ⟨j, hj, hk⟩,
    fun k hk => hgone.known k (hold k hk), fun e he => h.filled e (List.mem_filter.1 he).1, fun k q hq hk => ?_⟩
  by_cases hr : Registered s k
  · obtain ⟨e, he, hke⟩ := hr
    have haddr : e.1 = p.bpAddr := by
      by_contra hne
      exact hk ⟨e, List.mem_filter.2 ⟨he, by rw [decide_eq_true_iff]; exact hne⟩, hke⟩
    have hzero := (hempty e he haddr k hke).1
    have hq' : (s.pipes.modify i fun p => { p with reader := [] })[k]? = some q := hq
    rw [List.getElem?_modify] at hq'
    obtain ⟨q', hq'', rfl⟩ := Option.map_eq_some_iff.1 hq'
    have hcount := hzero q' hq''
    split
    · exact hcount
    · exact hcount
  · exact hgone.forgotten k q hq hr

/-- A reader's job that is not on a batch. -/
theorem reader_tracked (h : Tracked s) {p : Pipe} {j : Job} {rest : List Job} {r : SenderState × List Job}
    (hacc : Accounted s (.run (.reader i) env)) (hp : s.pipes[i]? = some p) (hs : p.reader = j :: rest)
    (hr : runPipe env s p j = some r) : Tracked (modifyPipe r.1 i fun p => { p with reader := r.2 ++ rest }) := by
  obtain ⟨-, hreset, hforget⟩ := hacc p hp j (by rw [hs]; rfl)
  obtain ⟨w, k, hw, hk, hcount⟩ := h.pipe i p hp
  rw [hs] at hk
  cases hk with
  | receives =>
    simp only [runPipe] at hr
    split at hr
    · cases hr
      refine h.pipeStep hp (modifyPipe_modifyPipe _ _ _ _) rfl rfl rfl ⟨w, p.inFlight.length, hw, ?_, ?_⟩ (le_refl _)
      · rw [List.append_nil]
        refine .fails (then_map (fun b => rfl) _ _) fun h0 => ?_
        rw [List.length_eq_zero_iff.1 h0]
        rfl
      · show p.bpInFlightCount = (p.outbox.length + 0 + w + p.inFlight.length + _ : Nat)
        omega
    · split at hr
      · cases hr
      · rename_i pp pps hin
        cases hr
        rw [hin] at hcount
        refine h.pipeStep hp (modifyPipe_modifyPipe _ _ _ _) rfl rfl rfl ⟨w, 1, hw, ?_, ?_⟩ (le_refl _)
        · rw [List.append_nil]
          exact .answers (then_map (fun b => rfl) _ _)
        · show p.bpInFlightCount = (p.outbox.length + pps.length + w + 1 + _ : Nat)
          rw [hcount, List.length_cons]
          omega
    · split at hr
      · cases hr
      · rename_i pp pps hin
        cases hr
        rw [hin] at hcount
        refine h.pipeStep hp (modifyPipe_modifyPipe _ _ _ _) rfl rfl rfl ⟨w, 1, hw, ?_, ?_⟩ (le_refl _)
        · rw [List.append_nil]
          exact .answers (then_processProduceResponse _ _ _)
        · show p.bpInFlightCount = (p.outbox.length + pps.length + w + 1 + _ : Nat)
          rw [hcount, List.length_cons]
          omega
  | answers hthen =>
    obtain ⟨rfl, rfl⟩ := hthen.last (runPipe_pipe hr).2
    cases hr
    refine h.pipeStep hp (modifyPipe_modifyPipe _ _ _ _) rfl rfl rfl ⟨w, 0, hw, .receives, ?_⟩ ?_
    · show p.bpInFlightCount - 1 = (p.outbox.length + p.inFlight.length + w + 0 + _ : Nat)
      omega
    · show p.bpInFlightCount - 1 ≤ p.bpInFlightCount
      omega
  | fails hthen _ =>
    obtain ⟨rfl, rfl⟩ := hthen.last (runPipe_pipe hr).2
    cases hr
    obtain ⟨hout, hin, hwriter, hwrites⟩ := hreset rfl
    refine h.pipeStep hp (modifyPipe_modifyPipe _ _ _ _) rfl rfl rfl ⟨0, 0, ?_, .forgets, ?_⟩ ?_
    · show WriterAt i p.writer 0
      rw [hwriter]
      exact .reads
    · show (0 : Int) = (p.outbox.length + p.inFlight.length + 0 + 0 + _ : Nat)
      rw [hout, hin, hwrites]
      rfl
    · exact (h.pipe i p hp).nonneg
  | forgets =>
    cases hr
    exact h.forget hp hs (hforget rfl)

theorem Tracked.ready (h : Tracked s) (b : ProducerBatch) :
    Tracked { s with accumulator := s.accumulator ++ [b] } :=
  ⟨h.sender, h.pipe, h.job, h.known, h.filled, h.forgotten⟩

theorem step_tracked (h : Tracked s) {e : Event} (hacc : Accounted s e) (hstep : Steps cfg s e s') :
    Tracked s' := by
  cases hstep with
  | ready b => exact h.ready b
  | sender hs hr =>
    rcases hr with hr | hr
    · exact h.senderBatch hs hr
    · exact runSender_tracked h hs hr
  | @writer i env p j rest r hp hs hr =>
    rcases hr with hr | hr
    · obtain ⟨hsame, hj, hnew⟩ := runBatch_unmoved hr
      obtain ⟨w, k, hw, hk, hcount⟩ := h.pipe i p hp
      rw [hs] at hw
      refine h.pipeStep (f := fun p => { p with writer := r.2 ++ rest }) hp ?_ hsame.sender hsame.busy hsame.brokers
        ⟨w, k, hw.batch hj hnew, hk, hcount⟩ (le_refl _)
      rw [← hsame.pipes]
      rfl
    · exact writer_tracked h hp hs hr
  | @reader i env p j rest r hp hs hr =>
    rcases hr with hr | hr
    · obtain ⟨hsame, hj, hnew⟩ := runBatch_unmoved hr
      obtain ⟨w, k, hw, hk, hcount⟩ := h.pipe i p hp
      rw [hs] at hk
      refine h.pipeStep (f := fun p => { p with reader := r.2 ++ rest }) hp ?_ hsame.sender hsame.busy hsame.brokers
        ⟨w, k, hw, hk.batch hj hnew, hcount⟩ (le_refl _)
      rw [← hsame.pipes]
      rfl
    · exact reader_tracked h hacc hp hs hr

/-! ## Batches -/

/-- The callbacks of the batches that an event brings. -/
def Event.submitted : Event → Multiset RecordCallback
  | .ready b => callbacksOf [b]
  | .run .. => 0

/-- The callbacks of the batches that became ready. -/
def submitted (es : List Event) : Multiset RecordCallback := (es.map Event.submitted).sum

theorem submitted_snoc (es : List Event) (e : Event) : submitted (es ++ [e]) = submitted es + e.submitted := by
  unfold submitted
  rw [List.map_append, List.sum_append, List.map_singleton, List.sum_singleton]

theorem WriterAt.pipe {j : Job} {rest : List Job} {w : Nat} (h : WriterAt i (j :: rest) w) (hj : j.isBatch = false) :
    j.pipe = some i := by
  cases h with
  | reads => rfl
  | handsOff => rfl
  | gives h => rw [(h.last hj).1]; rfl

theorem ReaderAt.pipe {j : Job} {rest : List Job} {k : Nat} (h : ReaderAt i (j :: rest) k) (hj : j.isBatch = false) :
    j.pipe = some i := by
  cases h with
  | receives => rfl
  | answers h => rw [(h.last hj).1]; rfl
  | fails h _ => rw [(h.last hj).1]; rfl
  | forgets => rfl

/-- A job of a pipe leaves the threads. -/
theorem runPipe_threads {p : Pipe} {j : Job} {r : SenderState × List Job} (hp : s.pipes[i]? = some p)
    (hj : j.pipe = some i) (h : runPipe env s p j = some r) :
    r.1.sender = s.sender ∧ ∃ q, r.1.pipes[i]? = some q ∧ q.writer = p.writer ∧ q.reader = p.reader := by
  have hmod : ∀ f : Pipe → Pipe, (modifyPipe s i f).pipes[i]? = some (f p) := by
    intro f
    show (s.pipes.modify i f)[i]? = _
    rw [List.getElem?_modify_eq, hp]
    rfl
  cases j with
  | writerRead pipe =>
    cases hj
    simp only [runPipe] at h
    split at h
    · cases h
    · cases h
      exact ⟨rfl, _, hmod _, rfl, rfl⟩
  | handOff pipe batches =>
    cases hj
    cases h
    exact ⟨rfl, _, hmod _, rfl, rfl⟩
  | receive pipe =>
    cases hj
    simp only [runPipe] at h
    split at h
    · cases h
      exact ⟨rfl, _, hmod _, rfl, rfl⟩
    · split at h
      · cases h
      · cases h
        exact ⟨rfl, _, hmod _, rfl, rfl⟩
    · split at h
      · cases h
      · cases h
        exact ⟨rfl, _, hmod _, rfl, rfl⟩
  | resetCount pipe =>
    cases hj
    cases h
    exact ⟨rfl, _, hmod _, rfl, rfl⟩
  | forget pipe =>
    cases h
    exact ⟨rfl, p, hp, rfl, rfl⟩
  | countDown pipe =>
    cases hj
    cases h
    exact ⟨rfl, _, hmod _, rfl, rfl⟩
  | _ => cases h

/-- The thread of a pipe goes on with the next jobs. -/
theorem Conserves.pipe {j : Job} {r : SenderState × List Job} {q : Pipe} {f : Pipe → Pipe} (h : Conserves s j r)
    (hsender : r.1.sender = s.sender) (hq : r.1.pipes[i]? = some q)
    (hf : (f q).held + callbacksOf j.batches = q.held + heldBy r.2) :
    (modifyPipe r.1 i f).ran + (modifyPipe r.1 i f).pending = s.ran + s.pending := by
  have hshared := shared_modifyPipe hq hf
  unfold Conserves at h
  unfold SenderState.pending
  refine add_right_cancel (b := callbacksOf j.batches) ?_
  show r.1.ran + (_ + heldBy r.1.sender) + _ = _
  rw [hsender]
  calc r.1.ran + ((modifyPipe r.1 i f).shared + heldBy s.sender) + callbacksOf j.batches
      = r.1.ran + ((modifyPipe r.1 i f).shared + callbacksOf j.batches) + heldBy s.sender := by abel
    _ = r.1.ran + r.1.shared + heldBy r.2 + heldBy s.sender := by rw [hshared]; abel
    _ = s.ran + (s.shared + heldBy s.sender) + callbacksOf j.batches := by rw [h]; abel

theorem held_writer {q : Pipe} {j : Job} {new rest : List Job} (hq : q.writer = j :: rest) :
    { q with writer := new ++ rest }.held + callbacksOf j.batches = q.held + heldBy new := by
  unfold Pipe.held
  simp only [hq, heldBy_cons, heldBy_append]
  abel

theorem held_reader {q : Pipe} {j : Job} {new rest : List Job} (hq : q.reader = j :: rest) :
    { q with reader := new ++ rest }.held + callbacksOf j.batches = q.held + heldBy new := by
  unfold Pipe.held
  simp only [hq, heldBy_cons, heldBy_append]
  abel

theorem sender_conserved {j : Job} {rest : List Job} {r : SenderState × List Job} (hs : s.sender = j :: rest)
    (hr : runBatch cfg env s j = some r ∨ runSender cfg env s j = some r) :
    SenderState.ran { r.1 with sender := r.2 ++ rest } + SenderState.pending { r.1 with sender := r.2 ++ rest } =
      s.ran + s.pending := by
  have hc : Conserves s j r := by
    rcases hr with hr | hr
    · exact runBatch_conserves hr
    · exact runSender_conserves hr
  unfold Conserves at hc
  show r.1.ran + (r.1.shared + heldBy (r.2 ++ rest)) = s.ran + (s.shared + heldBy s.sender)
  rw [hs, heldBy_append, heldBy_cons, ← add_assoc, ← add_assoc, hc]
  abel

/-- **A step loses and doubles no batch.** -/
theorem step_conserved (h : Tracked s) {e : Event} (hacc : Accounted s e) (hstep : Steps cfg s e s') :
    s'.ran + s'.pending = s.ran + s.pending + e.submitted := by
  cases hstep with
  | ready b =>
    show s.ran + (callbacksOf (s.accumulator ++ [b]) + _ + _ + heldBy s.sender) = s.ran + s.pending + callbacksOf [b]
    unfold SenderState.pending SenderState.shared
    rw [callbacksOf_append]
    abel
  | @sender env j rest r hs hr =>
    rw [show (Event.run .sender env).submitted = 0 from rfl, add_zero]
    exact sender_conserved hs hr
  | @writer i env p j rest r hp hs hr =>
    rw [show (Event.run (.writer i) env).submitted = 0 from rfl, add_zero]
    rcases hr with hr | hr
    · have hsame := (runBatch_unmoved hr).1
      have hq : r.1.pipes[i]? = some p := by
        rw [hsame.pipes]
        exact hp
      exact (runBatch_conserves hr).pipe hsame.sender hq (held_writer hs)
    · obtain ⟨w, k, hw, -, -⟩ := h.pipe i p hp
      rw [hs] at hw
      have hj := hw.pipe (runPipe_pipe hr).2
      obtain ⟨hsender, q, hq, hwriter, -⟩ := runPipe_threads hp hj hr
      refine (runPipe_conserves hp hj ?_ hr).pipe hsender hq (held_writer (hwriter.trans hs))
      cases hw with
      | reads => trivial
      | handsOff => trivial
      | gives hthen =>
        rw [(hthen.last (runPipe_pipe hr).2).1]
        trivial
  | @reader i env p j rest r hp hs hr =>
    rw [show (Event.run (.reader i) env).submitted = 0 from rfl, add_zero]
    rcases hr with hr | hr
    · have hsame := (runBatch_unmoved hr).1
      have hq : r.1.pipes[i]? = some p := by
        rw [hsame.pipes]
        exact hp
      exact (runBatch_conserves hr).pipe hsame.sender hq (held_reader hs)
    · obtain ⟨w, k, -, hk, -⟩ := h.pipe i p hp
      rw [hs] at hk
      have hj := hk.pipe (runPipe_pipe hr).2
      obtain ⟨hsender, q, hq, -, hreader⟩ := runPipe_threads hp hj hr
      exact (runPipe_conserves hp hj (hacc p hp j (by rw [hs]; rfl)).1 hr).pipe hsender hq
        (held_reader (hreader.trans hs))

/-! ## Runs -/

theorem init_tracked : Tracked SenderState.init := by
  refine ⟨.loops, fun i p hp => ?_, fun j hj k hk => ?_, fun k hk => ?_, nofun, fun i p hp => ?_⟩
  · cases hp
  · cases List.mem_singleton.1 hj
    cases hk
  · obtain ⟨e, he, -⟩ := hk
    cases he
  · cases hp

/-- The sender has nothing to do. -/
def Idle (s : SenderState) : Prop :=
  s.accumulator = [] ∧ s.senderBusy = false ∧ senderTotalInFlight s = 0

instance (s : SenderState) : Decidable (Idle s) := inferInstanceAs (Decidable (_ ∧ _ ∧ _))

/-- No callback has run twice, and if the sender is idle all have run. -/
def AccountedFor (es : List Event) (s : SenderState) : Prop :=
  s.ran ≤ submitted es ∧ (Idle s → s.ran = submitted es)

theorem run_conserved {es : List Event} (hrun : run (step cfg) SenderState.init es = some s)
    (hacc : Along (step cfg) Accounted SenderState.init es) :
    Tracked s ∧ s.ran + s.pending = submitted es := by
  have hinit : Tracked SenderState.init ∧
      SenderState.init.ran + SenderState.init.pending = submitted [] := ⟨init_tracked, rfl⟩
  refine run_induction (I := fun past t => Tracked t ∧ t.ran + t.pending = submitted past) ?_ hinit hacc hrun
  rintro past t e t' ⟨ht, hsum⟩ hP hstep
  have hsteps := steps_of_step hstep
  refine ⟨step_tracked ht hP hsteps, ?_⟩
  rw [step_conserved ht hP hsteps, hsum, submitted_snoc]

/-- Counters that are nowhere negative add up to zero only if they are zero. -/
theorem Tracked.counts_zero (h : Tracked s) (h0 : senderTotalInFlight s = 0) :
    s.senderRetryQueue = [] ∧ ∀ (i : PipeId) (p : Pipe), s.pipes[i]? = some p → p.bpInFlightCount = 0 := by
  have hcount : ∀ i : PipeId, 0 ≤ ((s.pipes[i]?).map Pipe.bpInFlightCount).getD 0 := by
    intro i
    cases hp : s.pipes[i]? with
    | none => exact le_refl 0
    | some p => exact (h.pipe i p hp).nonneg
  have hpool : ∀ x ∈ s.senderBrokerPipes.map fun e =>
      (e.2.map fun i => ((s.pipes[i]?).map Pipe.bpInFlightCount).getD 0).sum, 0 ≤ x := by
    intro x hx
    obtain ⟨e, -, rfl⟩ := List.mem_map.1 hx
    refine List.sum_nonneg fun y hy => ?_
    obtain ⟨i, -, rfl⟩ := List.mem_map.1 hy
    exact hcount i
  have htotal := List.sum_nonneg hpool
  unfold senderTotalInFlight at h0
  have hsum : (s.senderBrokerPipes.map fun e =>
      (e.2.map fun i => ((s.pipes[i]?).map Pipe.bpInFlightCount).getD 0).sum).sum = 0 := by omega
  refine ⟨List.length_eq_zero_iff.1 (by omega), fun i p hp => ?_⟩
  by_cases hr : Registered s i
  · obtain ⟨e, he, hi⟩ := hr
    have hzero := List.all_zero_of_le_zero_le_of_sum_eq_zero hpool hsum (List.mem_map_of_mem he)
    have hi0 := List.all_zero_of_le_zero_le_of_sum_eq_zero (fun y hy => by
      obtain ⟨i, -, rfl⟩ := List.mem_map.1 hy
      exact hcount i) hzero (List.mem_map_of_mem hi)
    rw [hp] at hi0
    exact hi0
  · exact h.forgotten i p hp hr

/-- An idle sender has no batch left. -/
theorem Tracked.idle (h : Tracked s) (hidle : Idle s) : s.pending = 0 := by
  obtain ⟨hacc, hbusy, hcount⟩ := hidle
  obtain ⟨hq, hpipes⟩ := h.counts_zero hcount
  have hsender := h.sender
  rw [hbusy] at hsender
  generalize hjs : s.sender = js at hsender
  cases hsender
  unfold SenderState.pending SenderState.shared
  rw [hacc, hq, hjs, List.sum_eq_zero]
  · rfl
  · intro x hx
    obtain ⟨p, hp, rfl⟩ := List.mem_map.1 hx
    obtain ⟨i, hi⟩ := List.getElem?_of_mem hp
    exact (h.pipe i p hi).held_zero (hpipes i p hi)

/-- One connection to each broker. -/
def oneConnection : Config where
  retryMaxAttempts := 3
  nextRetryBackoffMs := fun _ => 100
  senderDeliveryTimeoutMs := 120000
  senderMaxInFlight := 5
  senderConnsPerBroker := 1
  hash := fun _ => 0

/-- The broker is known and takes what is written. -/
def broker : Env where
  now := 0
  leader := some 1
  connects := true
  writes := true
  reply := .produce []

def aBatch : ProducerBatch where
  batchTopicPartition := ⟨"t", 0⟩
  batchCreateTime := 0
  batchCallbacks := [7]
  batchAttempts := 0
  batchProducerId := -1
  batchProducerEpoch := -1
  batchBaseSequence := -1

/-- The batch is sent in one turn of the sender. -/
def sent : List Event :=
  .ready aBatch :: List.replicate 12 (.run .sender broker) ++ List.replicate 2 (.run (.writer 0) broker)

def answer : Event := .run (.reader 0) { broker with reply := .produce [⟨⟨"t", 0⟩, 0, 42⟩] }

/-- The response names its partition. -/
def answered : List Event := sent ++ [answer, .run (.reader 0) broker, .run (.reader 0) broker]

def after (cfg : Config) (es : List Event) : SenderState := (run (step cfg) SenderState.init es).getD SenderState.init

theorem run_after {cfg : Config} {es : List Event} (h : (run (step cfg) SenderState.init es).isSome) :
    run (step cfg) SenderState.init es = some (after cfg es) := by
  obtain ⟨s, hs⟩ := Option.isSome_iff_exists.1 h
  unfold after
  rw [hs]
  rfl

theorem step_after {es : List Event} {e : Event} (h : (run (step cfg) SenderState.init (es ++ [e])).isSome) :
    step cfg (after cfg es) e = some (after cfg (es ++ [e])) := by
  obtain ⟨s, hs, hlast⟩ := run_append.1 (run_after h)
  obtain ⟨s', hs', hnil⟩ := run_cons.1 hlast
  cases hnil
  rw [after, hs]
  exact hs'

/-- The response names no partition. -/
def omitted : List Event := sent ++ List.replicate 2 (.run (.reader 0) broker)


end Wireform.Kafka.Sender
