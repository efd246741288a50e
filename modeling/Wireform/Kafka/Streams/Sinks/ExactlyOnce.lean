/-
  What is visible downstream of the sinks with two-phase commit.

  `Account` is what the calls and their outcomes say should be visible: the rows of a
  transaction are those of its first `prepare`, and they are visible from the first
  `commit` that returned `SinkOutcome.ok`, unless the transaction was aborted before.

  * `KeepsBatch`, `KeepsFile`: a repeated `prepare` does not replace what was prepared;
  * `Buffering`: what the two sinks that buffer in memory have in common;
  * `exactly_once`: where the calls keep the batches, and nothing downstream fails that
    the sink does not survive, the sinks follow the account.
-/
import Wireform.Kafka.Streams.Sinks.TwoPhase
import Wireform.Transition

namespace Wireform.Kafka.Streams.TwoPhase

open AssocMap Transition

variable {τ ρ σ : Type} [LinearOrder τ]

/-! ## The account of a run -/

structure Account (τ ρ : Type) where
  staged : List ρ
  /-- The rows of the first `prepare` of a transaction. -/
  first : AssocMap τ (List ρ)
  /-- In the order of the commits. -/
  committed : List τ
  /-- Aborted before any commit. -/
  aborted : List τ
  /-- The last write of the batch failed, or the removal of it. -/
  damaged : List τ

namespace Account

variable (a : Account τ ρ) (t : τ)

def new : Account τ ρ := ⟨[], [], [], [], []⟩

def rowsOf : List ρ := (lookup t a.first).getD []

def Pending : Prop := (lookup t a.first).isSome ∧ t ∉ a.committed ∧ t ∉ a.aborted

instance : Decidable (a.Pending t) := inferInstanceAs (Decidable (_ ∧ _ ∧ _))

/-- The rows that the next commit makes visible. -/
def owed : List ρ := if a.Pending t then a.rowsOf t else []

/-- Never prepared and never aborted. -/
def Fresh : Prop := lookup t a.first = none ∧ t ∉ a.aborted

instance : Decidable (a.Fresh t) := inferInstanceAs (Decidable (_ ∧ _))

def visible : List ρ := a.committed.flatMap a.rowsOf

def after (outcome : SinkOutcome) : Call τ ρ → Account τ ρ
  | .stage r => { a with staged := a.staged ++ [r] }
  | .prepare t extra w =>
    { a with
      staged := []
      first := if lookup t a.first = none then insert t (a.staged ++ extra) a.first else a.first
      damaged := match w with
        | .done => a.damaged.filter (· ≠ t)
        | .failed _ none => if lookup t a.first = none then t :: a.damaged else a.damaged
        | .failed _ (some _) => t :: a.damaged }
  | .commit t _ =>
    if outcome = .ok ∧ a.Pending t then { a with committed := a.committed ++ [t] } else a
  | .abort t fault =>
    { a with
      aborted := if t ∈ a.committed then a.aborted else t :: a.aborted
      damaged := match fault with
        | none => a.damaged.filter (· ≠ t)
        | some _ => if a.Pending t then t :: a.damaged else a.damaged }
  | .discardStaged => { a with staged := [] }
  | .recover => a

attribute [grind =] after

end Account

/-- A call of a sink, and what it adds to the account. -/
def perform (sink : TwoPhaseSink σ τ ρ) (x : σ × Account τ ρ) (c : Call τ ρ) : Option (σ × Account τ ρ) :=
  some ((sink.call x.1 c).2, x.2.after (sink.call x.1 c).1 c)

/-! ## What a call may do -/

/-- A repeated `prepare` brings what the next commit has to make visible: the same rows,
    and none once the transaction is committed or aborted. -/
def KeepsBatch (a : Account τ ρ) : Call τ ρ → Prop
  | .prepare t extra _ => a.Fresh t ∨ a.staged ++ extra = a.owed t
  | _ => True

/-- The callback only throws when there is nothing to deliver. -/
def Delivers (a : Account τ ρ) : Call τ ρ → Prop
  | .commit t (some _) => a.owed t = []
  | _ => True

/-- A repeated `prepare` writes the same file, and no commit is made after the file could not
    be written, or not be removed. -/
def KeepsFile (encode : ρ → List UInt8) (a : Account τ ρ) : Call τ ρ → Prop
  | .prepare t extra _ =>
    a.Fresh t ∨ t ∉ a.aborted ∧ body encode (a.staged ++ extra) = body encode (a.rowsOf t)
  | .commit t _ => t ∉ a.damaged
  | _ => True

instance [DecidableEq ρ] (a : Account τ ρ) : DecidablePred (KeepsBatch a) := fun c => by
  cases c <;> unfold KeepsBatch <;> infer_instance

instance [DecidableEq ρ] (a : Account τ ρ) : DecidablePred (Delivers a) := fun c => by
  unfold Delivers
  split <;> infer_instance

instance (encode : ρ → List UInt8) (a : Account τ ρ) : DecidablePred (KeepsFile encode a) := fun c => by
  cases c <;> unfold KeepsFile <;> infer_instance

/-! ## The account is sound -/

namespace Account

variable {a : Account τ ρ} {t : τ}

/-- **A transaction is committed at most once, after it was prepared, and not after it was
    aborted.** -/
structure Sound (a : Account τ ρ) : Prop where
  nodup : a.committed.Nodup
  prepared : ∀ t ∈ a.committed, (lookup t a.first).isSome
  not_aborted : ∀ t ∈ a.committed, t ∉ a.aborted

theorem Sound.new : (new : Account τ ρ).Sound :=
  ⟨List.nodup_nil, fun _ h => absurd h List.not_mem_nil, fun _ h => absurd h List.not_mem_nil⟩

variable {o : SinkOutcome}

theorem after_commit (fault : Option String) (hc : o = .ok ∧ a.Pending t) :
    a.after o (.commit t fault) = { a with committed := a.committed ++ [t] } := if_pos hc

theorem after_commit_of_not (fault : Option String) (hc : ¬(o = .ok ∧ a.Pending t)) :
    a.after o (.commit t fault) = a := if_neg hc

/-- The rows of a transaction never change. -/
theorem rowsOf_after (o : SinkOutcome) (c : Call τ ρ) (h : (lookup t a.first).isSome) :
    lookup t (a.after o c).first = lookup t a.first := by
  cases c with
  | prepare t' extra w =>
    by_cases hnew : lookup t' a.first = none
    · have hne : t ≠ t' := by
        rintro rfl
        rw [hnew] at h
        cases h
      simp [after, hnew, hne]
    · simp [after, hnew]
  | commit t' fault =>
    by_cases hc : o = .ok ∧ a.Pending t'
    · rw [after_commit fault hc]
    · rw [after_commit_of_not fault hc]
  | _ => rfl

theorem Sound.after (h : a.Sound) (o : SinkOutcome) (c : Call τ ρ) : (a.after o c).Sound := by
  cases c with
  | prepare t extra w =>
    refine ⟨h.nodup, fun t' ht' => ?_, h.not_aborted⟩
    rw [rowsOf_after o _ (h.prepared t' ht')]
    exact h.prepared t' ht'
  | commit t fault =>
    by_cases hc : o = .ok ∧ a.Pending t
    · rw [after_commit fault hc]
      obtain ⟨-, hsome, hnew, hab⟩ := hc
      refine ⟨?_, fun t' ht' => ?_, fun t' ht' => ?_⟩
      · rw [List.nodup_append]
        refine ⟨h.nodup, List.nodup_singleton t, fun x hx y hy => ?_⟩
        rintro rfl
        rw [List.mem_singleton.1 hy] at hx
        exact hnew hx
      · rcases List.mem_append.1 ht' with hm | hm
        · exact h.prepared t' hm
        · rw [List.mem_singleton.1 hm]
          exact hsome
      · rcases List.mem_append.1 ht' with hm | hm
        · exact h.not_aborted t' hm
        · rw [List.mem_singleton.1 hm]
          exact hab
    · rw [after_commit_of_not fault hc]
      exact h
  | abort t fault =>
    refine ⟨h.nodup, h.prepared, fun t' ht' => ?_⟩
    have hold := h.not_aborted t' ht'
    simp only [Account.after]
    split
    · exact hold
    · rename_i hne
      rw [List.mem_cons, not_or]
      refine ⟨?_, hold⟩
      rintro rfl
      exact hne ht'
  | stage r => exact ⟨h.nodup, h.prepared, h.not_aborted⟩
  | discardStaged => exact ⟨h.nodup, h.prepared, h.not_aborted⟩
  | recover => exact h

theorem Sound.visible_after_of_eq (h : a.Sound) (o : SinkOutcome) (c : Call τ ρ)
    (heq : (a.after o c).committed = a.committed) : (a.after o c).visible = a.visible := by
  unfold visible
  rw [heq]
  refine List.flatMap_congr fun t ht => ?_
  unfold rowsOf
  rw [rowsOf_after o c (h.prepared t ht)]

/-! ### What is owed -/

theorem owed_of_not_pending (h : ¬a.Pending t) : a.owed t = [] := if_neg h

theorem owed_of_pending (h : a.Pending t) : a.owed t = a.rowsOf t := if_pos h

theorem owed_congr {b : Account τ ρ} (hfirst : lookup t b.first = lookup t a.first)
    (hcom : t ∈ b.committed ↔ t ∈ a.committed) (hab : t ∈ b.aborted ↔ t ∈ a.aborted) : b.owed t = a.owed t := by
  have hiff : b.Pending t ↔ a.Pending t := by
    unfold Pending
    rw [hfirst, hcom, hab]
  by_cases hp : a.Pending t
  · rw [owed_of_pending hp, owed_of_pending (hiff.2 hp)]
    unfold rowsOf
    rw [hfirst]
  · rw [owed_of_not_pending hp, owed_of_not_pending fun h => hp (hiff.1 h)]

theorem Fresh.not_committed (h : a.Fresh t) (hs : a.Sound) : t ∉ a.committed := by
  intro hm
  have hsome := hs.prepared t hm
  rw [h.1] at hsome
  cases hsome

theorem owed_prepare (hs : a.Sound) (o : SinkOutcome) (extra : List ρ) (w : Write) (t' : τ) :
    (a.after o (.prepare t extra w)).owed t' =
      if t' = t ∧ a.Fresh t then a.staged ++ extra else a.owed t' := by
  by_cases hnew : lookup t a.first = none
  · have hfirst (t' : τ) : lookup t' (a.after o (.prepare t extra w)).first =
        if t' = t then some (a.staged ++ extra) else lookup t' a.first := by
      simp [after, hnew]
    split
    · rename_i hc
      obtain ⟨rfl, hfresh⟩ := hc
      have hpend : (a.after o (.prepare t' extra w)).Pending t' :=
        ⟨by simp [hfirst], hfresh.not_committed hs, hfresh.2⟩
      rw [owed_of_pending hpend, rowsOf, hfirst, if_pos rfl]
      rfl
    · rename_i hc
      by_cases heq : t' = t
      · have hab : t' ∈ a.aborted := by
          by_contra hab
          exact hc ⟨heq, hnew, heq ▸ hab⟩
        have hold : ¬a.Pending t' := fun hp => hp.2.2 hab
        have hafter : ¬(a.after o (.prepare t extra w)).Pending t' := fun hp => hp.2.2 hab
        rw [owed_of_not_pending hold, owed_of_not_pending hafter]
      · exact owed_congr (by rw [hfirst, if_neg heq]) Iff.rfl Iff.rfl
  · rw [if_neg fun hc => hnew hc.2.1]
    exact owed_congr (by simp [after, hnew]) Iff.rfl Iff.rfl

theorem owed_of_not_done (hc : ¬(o = .ok ∧ a.Pending t)) (hdone : o = .ok ∨ a.owed t = []) :
    a.owed t = [] := by
  rcases hdone with rfl | hnone
  · exact owed_of_not_pending fun hp => hc ⟨rfl, hp⟩
  · exact hnone

theorem owed_commit (fault : Option String) (t' : τ) (hdone : o = .ok ∨ a.owed t = []) :
    (a.after o (.commit t fault)).owed t' = if t' = t then [] else a.owed t' := by
  by_cases hc : o = .ok ∧ a.Pending t
  · rw [after_commit fault hc]
    by_cases heq : t' = t
    · rw [if_pos heq]
      exact owed_of_not_pending fun hp => hp.2.1 (by simp [heq])
    · rw [if_neg heq]
      exact owed_congr rfl (by simp [heq]) Iff.rfl
  · rw [after_commit_of_not fault hc]
    split
    · rename_i heq
      rw [heq, owed_of_not_done hc hdone]
    · rfl

theorem owed_abort (o : SinkOutcome) (fault : Option String) (t' : τ) :
    (a.after o (.abort t fault)).owed t' = if t' = t then [] else a.owed t' := by
  by_cases heq : t' = t
  · rw [if_pos heq, heq]
    refine owed_of_not_pending fun hp => ?_
    by_cases hm : t ∈ a.committed
    · exact hp.2.1 hm
    · exact hp.2.2 (by simp [after, hm])
  · rw [if_neg heq]
    refine owed_congr rfl Iff.rfl ?_
    by_cases hm : t ∈ a.committed <;> simp [after, hm, heq]

theorem visible_commit (fault : Option String) (hdone : o = .ok ∨ a.owed t = []) :
    (a.after o (.commit t fault)).visible = a.visible ++ a.owed t := by
  by_cases hc : o = .ok ∧ a.Pending t
  · rw [after_commit fault hc, owed_of_pending hc.2]
    change (a.committed ++ [t]).flatMap a.rowsOf = a.committed.flatMap a.rowsOf ++ a.rowsOf t
    rw [List.flatMap_append, List.flatMap_singleton]
  · rw [after_commit_of_not fault hc, owed_of_not_done hc hdone, List.append_nil]

theorem staged_commit (o : SinkOutcome) (fault : Option String) :
    (a.after o (.commit t fault)).staged = a.staged := by
  by_cases hc : o = .ok ∧ a.Pending t
  · rw [after_commit fault hc]
  · rw [after_commit_of_not fault hc]

end Account

/-! ## Sinks that buffer in memory -/

/-- What the in-memory sink and the callback sink have in common; `throws` are the faults
    that keep a batch from being delivered. -/
structure Buffering (sink : TwoPhaseSink σ τ ρ) (staged : σ → List ρ) (batches : σ → AssocMap τ (List ρ))
    (seen : σ → List ρ) (throws : Option String → Prop) : Prop where
  stage (s : σ) (r : ρ) :
    staged (sink.stage r s) = staged s ++ [r] ∧ batches (sink.stage r s) = batches s ∧
      seen (sink.stage r s) = seen s
  prepare (s : σ) (t : τ) (extra : List ρ) (w : Write) :
    staged (sink.prepare t extra w s).2 = [] ∧
      batches (sink.prepare t extra w s).2 = insert t (staged s ++ extra) (batches s) ∧
      seen (sink.prepare t extra w s).2 = seen s
  commit (s : σ) (t : τ) (fault : Option String) :
    staged (sink.commit t fault s).2 = staged s ∧ batches (sink.commit t fault s).2 = erase t (batches s)
  commit_ok (s : σ) (t : τ) (fault : Option String) : ¬throws fault →
    (sink.commit t fault s).1 = .ok ∧
      seen (sink.commit t fault s).2 = seen s ++ (lookup t (batches s)).getD []
  commit_throws (s : σ) (t : τ) (fault : Option String) : throws fault →
    seen (sink.commit t fault s).2 = seen s
  abort (s : σ) (t : τ) (fault : Option String) :
    staged (sink.abort t fault s).2 = staged s ∧
      batches (sink.abort t fault s).2 = erase t (batches s) ∧ seen (sink.abort t fault s).2 = seen s
  discardStaged (s : σ) :
    staged (sink.discardStaged s) = [] ∧ batches (sink.discardStaged s) = batches s ∧
      seen (sink.discardStaged s) = seen s

/-- The sink is where the account says. -/
structure Agrees (staged : σ → List ρ) (batches : σ → AssocMap τ (List ρ)) (seen : σ → List ρ)
    (s : σ) (a : Account τ ρ) : Prop where
  sound : a.Sound
  staged : staged s = a.staged
  batches : ∀ t, (lookup t (batches s)).getD [] = a.owed t
  seen : seen s = a.visible

section Buffering

variable {sink : TwoPhaseSink σ τ ρ} {staged : σ → List ρ} {batches : σ → AssocMap τ (List ρ)}
  {seen : σ → List ρ} {throws : Option String → Prop} {s : σ} {a : Account τ ρ}

theorem Agrees.prepare (hb : Buffering sink staged batches seen throws) (h : Agrees staged batches seen s a)
    {t : τ} {extra : List ρ} {w : Write} (hkeep : KeepsBatch a (.prepare t extra w)) (o : SinkOutcome) :
    Agrees staged batches seen (sink.prepare t extra w s).2 (a.after o (.prepare t extra w)) := by
  obtain ⟨hstaged, hbatch, hseen⟩ := hb.prepare s t extra w
  refine ⟨h.sound.after _ _, hstaged, fun t' => ?_, ?_⟩
  · rw [hbatch, lookup_insert, h.staged, Account.owed_prepare h.sound]
    by_cases heq : t' = t
    · rw [if_pos heq, Option.getD_some]
      split
      · rfl
      · rename_i hnot
        rw [heq]
        exact hkeep.resolve_left fun hfresh => hnot ⟨heq, hfresh⟩
    · rw [if_neg heq, if_neg fun hc => heq hc.1, h.batches]
  · rw [hseen, h.seen, h.sound.visible_after_of_eq o _ rfl]

theorem Agrees.commit (hb : Buffering sink staged batches seen throws) (h : Agrees staged batches seen s a)
    {t : τ} {fault : Option String} (hdone : ¬throws fault ∨ a.owed t = []) :
    Agrees staged batches seen (sink.commit t fault s).2
      (a.after (sink.commit t fault s).1 (.commit t fault)) := by
  have hok : (sink.commit t fault s).1 = .ok ∨ a.owed t = [] :=
    hdone.imp (fun hn => (hb.commit_ok s t fault hn).1) id
  obtain ⟨hstaged, hbatch⟩ := hb.commit s t fault
  refine ⟨h.sound.after _ _, ?_, fun t' => ?_, ?_⟩
  · rw [hstaged, h.staged, Account.staged_commit]
  · rw [hbatch, lookup_erase, Account.owed_commit _ _ hok]
    split
    · rfl
    · exact h.batches t'
  · rw [Account.visible_commit _ hok]
    by_cases hn : throws fault
    · rw [hb.commit_throws s t fault hn, h.seen, hdone.resolve_left (not_not_intro hn), List.append_nil]
    · rw [(hb.commit_ok s t fault hn).2, h.batches, h.seen]

theorem Agrees.abort (hb : Buffering sink staged batches seen throws) (h : Agrees staged batches seen s a)
    (t : τ) (fault : Option String) (o : SinkOutcome) :
    Agrees staged batches seen (sink.abort t fault s).2 (a.after o (.abort t fault)) := by
  obtain ⟨hstaged, hbatch, hseen⟩ := hb.abort s t fault
  refine ⟨h.sound.after _ _, hstaged.trans h.staged, fun t' => ?_, ?_⟩
  · rw [hbatch, lookup_erase, Account.owed_abort]
    split
    · rfl
    · exact h.batches t'
  · rw [hseen, h.seen, h.sound.visible_after_of_eq o _ rfl]

/-- **One call of a sink that buffers in memory.** -/
theorem Agrees.call (hb : Buffering sink staged batches seen throws) (h : Agrees staged batches seen s a)
    {c : Call τ ρ} (hkeep : KeepsBatch a c)
    (hdone : ∀ t fault, c = .commit t fault → ¬throws fault ∨ a.owed t = []) :
    Agrees staged batches seen (sink.call s c).2 (a.after (sink.call s c).1 c) := by
  cases c with
  | stage r =>
    obtain ⟨hstaged, hbatch, hseen⟩ := hb.stage s r
    refine ⟨h.sound.after _ _, ?_, fun t => ?_, hseen.trans h.seen⟩
    · exact hstaged.trans (congrArg (· ++ [r]) h.staged)
    · exact (congrArg (fun m => (lookup t m).getD []) hbatch).trans (h.batches t)
  | prepare t extra w => exact h.prepare hb hkeep _
  | commit t fault => exact h.commit hb (hdone t fault rfl)
  | abort t fault => exact h.abort hb t fault _
  | discardStaged =>
    obtain ⟨hstaged, hbatch, hseen⟩ := hb.discardStaged s
    refine ⟨h.sound.after _ _, hstaged, fun t => ?_, hseen.trans h.seen⟩
    exact (congrArg (fun m => (lookup t m).getD []) hbatch).trans (h.batches t)
  | recover => exact h

end Buffering

theorem inMemory_buffering (name : String) :
    Buffering (inMemoryTwoPhaseSink name : TwoPhaseSink (InMemory τ ρ) τ ρ) (fun s => s.staged.reverse)
      (fun s => s.prepared) InMemory.readCommittedRows (fun _ => False) where
  stage s r := ⟨List.reverse_cons, rfl, rfl⟩
  prepare s t extra w := ⟨rfl, rfl, rfl⟩
  commit s t fault := by
    unfold inMemoryTwoPhaseSink
    cases hl : lookup t s.prepared <;> simp [hl]
  commit_ok s t fault _ := by
    unfold inMemoryTwoPhaseSink InMemory.readCommittedRows
    cases hl : lookup t s.prepared <;> simp [hl]
  commit_throws s t fault h := h.elim
  abort s t fault := ⟨rfl, rfl, rfl⟩
  discardStaged s := ⟨rfl, rfl, rfl⟩

theorem httpEcho_buffering (name : String) :
    Buffering (httpEchoTwoPhaseSink name : TwoPhaseSink (HttpEcho τ ρ) τ ρ) (fun s => s.staged.reverse)
      (fun s => s.buf) (fun s => s.delivered.flatten) (fun fault => fault ≠ none) where
  stage s r := ⟨List.reverse_cons, rfl, rfl⟩
  prepare s t extra w := ⟨rfl, rfl, rfl⟩
  commit s t fault := by
    unfold httpEchoTwoPhaseSink
    cases hl : lookup t s.buf <;> cases fault <;> simp [hl]
  commit_ok s t fault h := by
    obtain rfl := not_not.1 h
    unfold httpEchoTwoPhaseSink
    cases hl : lookup t s.buf <;> simp [hl]
  commit_throws s t fault h := by
    obtain ⟨e, rfl⟩ := Option.ne_none_iff_exists'.1 h
    unfold httpEchoTwoPhaseSink
    cases hl : lookup t s.buf <;> simp [hl]
  abort s t fault := ⟨rfl, rfl, rfl⟩
  discardStaged s := ⟨rfl, rfl, rfl⟩

/-! ## The files -/

/-- The batch file of a transaction is what its next commit may rename. -/
structure Whole (encode : ρ → List UInt8) (s : Filesystem τ ρ) (a : Account τ ρ) (t : τ) : Prop where
  pending : a.Pending t → lookup t s.prepared = some (body encode (a.rowsOf t))
  gone : lookup t a.first = none ∨ t ∈ a.aborted → lookup t s.prepared = none
  rewritten : t ∈ a.committed → ∀ text, lookup t s.prepared = some text → text = body encode (a.rowsOf t)

/-- The directories are where the account says. -/
structure Stored (encode : ρ → List UInt8) (s : Filesystem τ ρ) (a : Account τ ρ) : Prop where
  sound : a.Sound
  staged : s.staged.reverse = a.staged
  committed : ∀ t, lookup t s.committed = if t ∈ a.committed then some (body encode (a.rowsOf t)) else none
  whole : ∀ t, t ∉ a.damaged → Whole encode s a t

section Files

variable {encode : ρ → List UInt8} {name : String} {s s' : Filesystem τ ρ} {a b : Account τ ρ} {t : τ}

/-- What a call that has nothing to do with the transaction leaves. -/
theorem Whole.congr (h : Whole encode s a t) (hfile : lookup t s'.prepared = lookup t s.prepared)
    (hfirst : lookup t b.first = lookup t a.first) (hcom : t ∈ b.committed ↔ t ∈ a.committed)
    (hab : t ∈ b.aborted ↔ t ∈ a.aborted) : Whole encode s' b t := by
  have hrows : b.rowsOf t = a.rowsOf t := by
    unfold Account.rowsOf
    rw [hfirst]
  refine ⟨fun hp => ?_, fun hg => ?_, fun hc text => ?_⟩
  · unfold Account.Pending at hp
    rw [hfirst, hcom, hab] at hp
    rw [hfile, hrows]
    exact h.pending hp
  · rw [hfirst, hab] at hg
    rw [hfile]
    exact h.gone hg
  · rw [hfile, hrows]
    exact h.rewritten (hcom.1 hc) text

/-- The committed files, where the transactions are committed as before. -/
theorem Stored.committed_after (h : Stored encode s a) (o : SinkOutcome) (c : Call τ ρ)
    (heq : (a.after o c).committed = a.committed) (t : τ) :
    lookup t s.committed =
      if t ∈ (a.after o c).committed then some (body encode ((a.after o c).rowsOf t)) else none := by
  rw [h.committed, heq]
  by_cases hm : t ∈ a.committed
  · unfold Account.rowsOf
    rw [if_pos hm, if_pos hm, Account.rowsOf_after o c (h.sound.prepared t hm)]
  · rw [if_neg hm, if_neg hm]

theorem lookup_first_of_ne (o : SinkOutcome) {t' : τ} (hne : t' ≠ t) (extra : List ρ) (w : Write) :
    lookup t' (a.after o (.prepare t extra w)).first = lookup t' a.first := by
  by_cases hnew : lookup t a.first = none <;> simp [Account.after, hnew, hne]

/-- The file that a `prepare` has written. -/
theorem Stored.whole_prepared (h : Stored encode s a) {extra : List ρ}
    (hkeep : KeepsFile encode a (.prepare t extra .done)) (o : SinkOutcome) :
    Whole encode ((filesystemTwoPhaseSink encode name).prepare t extra .done s).2
      (a.after o (.prepare t extra .done)) t := by
  have hfile : lookup t ((filesystemTwoPhaseSink encode name).prepare t extra .done s).2.prepared =
      some (body encode (a.staged ++ extra)) := by
    simp [filesystemTwoPhaseSink, h.staged]
  have hsome : lookup t (a.after o (.prepare t extra .done)).first ≠ none := by
    by_cases hnew : lookup t a.first = none <;> simp [Account.after, hnew]
  have hrows : body encode (a.staged ++ extra) = body encode ((a.after o (.prepare t extra .done)).rowsOf t) := by
    by_cases hnew : lookup t a.first = none
    · simp [Account.after, Account.rowsOf, hnew]
    · rw [(hkeep.resolve_left fun hfresh => hnew hfresh.1).2]
      unfold Account.rowsOf
      rw [Account.rowsOf_after o _ (Option.isSome_iff_ne_none.2 hnew)]
  have hab : t ∉ a.aborted := hkeep.elim (fun hfresh => hfresh.2) And.left
  refine ⟨fun _ => hfile.trans (congrArg some hrows), fun hg => ?_, fun _ text htext => ?_⟩
  · exact (hg.elim hsome hab).elim
  · rw [hfile] at htext
    rw [← hrows]
    exact (Option.some.inj htext).symm

theorem Stored.prepare (h : Stored encode s a) {extra : List ρ} {w : Write}
    (hkeep : KeepsFile encode a (.prepare t extra w)) (o : SinkOutcome) :
    Stored encode ((filesystemTwoPhaseSink encode name).prepare t extra w s).2
      (a.after o (.prepare t extra w)) := by
  have hcom : ((filesystemTwoPhaseSink encode name).prepare t extra w s).2.committed = s.committed := by
    rcases w with _ | ⟨e, _ | left⟩ <;> rfl
  have hother (t' : τ) (hne : t' ≠ t) :
      lookup t' ((filesystemTwoPhaseSink encode name).prepare t extra w s).2.prepared = lookup t' s.prepared := by
    rcases w with _ | ⟨e, _ | left⟩ <;> simp [filesystemTwoPhaseSink, hne]
  refine ⟨h.sound.after _ _, ?_, fun t' => ?_, fun t' ht' => ?_⟩
  · rcases w with _ | ⟨e, _ | left⟩ <;> rfl
  · rw [hcom]
    exact h.committed_after o (.prepare t extra w) rfl t'
  · by_cases heq : t' = t
    · subst heq
      rcases w with _ | ⟨e, _ | left⟩
      · exact h.whole_prepared hkeep o
      · by_cases hnew : lookup t' a.first = none
        · simp [Account.after, hnew] at ht'
        · have hold : t' ∉ a.damaged := by simpa [Account.after, hnew] using ht'
          exact (h.whole t' hold).congr rfl
            (Account.rowsOf_after o _ (Option.isSome_iff_ne_none.2 hnew)) Iff.rfl Iff.rfl
      · simp [Account.after] at ht'
    · have hold : t' ∉ a.damaged := by
        rcases w with _ | ⟨e, _ | left⟩
        · simpa [Account.after, heq] using ht'
        · by_cases hnew : lookup t a.first = none <;> simpa [Account.after, hnew, heq] using ht'
        · simpa [Account.after, heq] using ht'
      exact (h.whole t' hold).congr (hother t' heq) (lookup_first_of_ne o heq extra w) Iff.rfl Iff.rfl

theorem Stored.commit (h : Stored encode s a) {fault : Option String} (hwhole : t ∉ a.damaged) :
    Stored encode ((filesystemTwoPhaseSink encode name).commit t fault s).2
      (a.after ((filesystemTwoPhaseSink encode name).commit t fault s).1 (.commit t fault)) := by
  have hw := h.whole t hwhole
  cases hfile : lookup t s.prepared with
  | none =>
    have hnot : ¬a.Pending t := fun hp => by
      rw [hw.pending hp] at hfile
      cases hfile
    have hcall : (filesystemTwoPhaseSink encode name).commit t fault s = (.ok, s) := by
      simp [filesystemTwoPhaseSink, hfile]
    rw [hcall, Account.after_commit_of_not fault fun hc => hnot hc.2]
    exact h
  | some text =>
    cases fault with
    | some e =>
      have hcall : (filesystemTwoPhaseSink encode name).commit t (some e) s = (.retryable ("rename: " ++ e), s) := by
        simp [filesystemTwoPhaseSink, hfile]
      rw [hcall, Account.after_commit_of_not (some e) fun hc => by cases hc.1]
      exact h
    | none =>
      have hcall : (filesystemTwoPhaseSink encode name).commit t none s =
          (.ok, { s with prepared := erase t s.prepared, committed := insert t text s.committed }) := by
        simp [filesystemTwoPhaseSink, hfile]
      rw [hcall]
      have hsome : lookup t a.first ≠ none := fun hnone => by
        rw [hw.gone (Or.inl hnone)] at hfile
        cases hfile
      have hab : t ∉ a.aborted := fun hm => by
        rw [hw.gone (Or.inr hm)] at hfile
        cases hfile
      by_cases hm : t ∈ a.committed
      · -- a second commit renames the same file again
        rw [Account.after_commit_of_not none fun hc => hc.2.2.1 hm]
        refine ⟨h.sound, h.staged, fun t' => ?_, fun t' ht' => ?_⟩
        · rw [lookup_insert]
          split
          · rename_i heq
            rw [heq, if_pos hm, hw.rewritten hm text hfile]
          · exact h.committed t'
        · by_cases heq : t' = t
          · subst heq
            refine ⟨fun hp => (hp.2.1 hm).elim, fun hg => (hg.elim hsome hab).elim, fun _ text' htext => ?_⟩
            simp [lookup_erase] at htext
          · exact (h.whole t' ht').congr (by simp [lookup_erase, heq]) rfl Iff.rfl Iff.rfl
      · have hp : a.Pending t := ⟨Option.isSome_iff_ne_none.2 hsome, hm, hab⟩
        have htext : text = body encode (a.rowsOf t) := by
          rw [hw.pending hp] at hfile
          exact (Option.some.inj hfile).symm
        have hsound := h.sound.after .ok (.commit t none)
        rw [Account.after_commit none ⟨rfl, hp⟩] at hsound ⊢
        refine ⟨hsound, h.staged, fun t' => ?_, fun t' ht' => ?_⟩
        · rw [lookup_insert, htext]
          by_cases heq : t' = t
          · rw [if_pos heq, heq, if_pos (by simp)]
            rfl
          · rw [if_neg heq, h.committed]
            simp only [List.mem_append, List.mem_singleton, heq, or_false]
            rfl
        · by_cases heq : t' = t
          · subst heq
            refine ⟨fun hq => (hq.2.1 (by simp)).elim, fun hg => (hg.elim hsome hab).elim, fun _ text' ht => ?_⟩
            simp [lookup_erase] at ht
          · exact (h.whole t' ht').congr (by simp [lookup_erase, heq]) rfl (by simp [heq]) Iff.rfl

theorem Stored.abort (h : Stored encode s a) (fault : Option String) (o : SinkOutcome) :
    Stored encode ((filesystemTwoPhaseSink encode name).abort t fault s).2 (a.after o (.abort t fault)) := by
  have hkeep : ((filesystemTwoPhaseSink encode name).abort t fault s).2.committed = s.committed ∧
      ((filesystemTwoPhaseSink encode name).abort t fault s).2.staged = s.staged := by
    cases fault <;> exact ⟨rfl, rfl⟩
  have hnotPending : ¬(a.after o (.abort t fault)).Pending t := by
    rintro ⟨-, hm, hab⟩
    exact hab (by simp [Account.after, show t ∉ a.committed from hm])
  refine ⟨h.sound.after _ _, by rw [hkeep.2]; exact h.staged, fun t' => ?_, fun t' ht' => ?_⟩
  · rw [hkeep.1]
    exact h.committed_after o (.abort t fault) rfl t'
  · by_cases heq : t' = t
    · subst heq
      cases fault with
      | none =>
        have hgone : lookup t' ((filesystemTwoPhaseSink encode name).abort t' none s).2.prepared = none := by
          simp [filesystemTwoPhaseSink, lookup_erase]
        refine ⟨fun hp => (hnotPending hp).elim, fun _ => hgone, fun _ text htext => ?_⟩
        rw [hgone] at htext
        cases htext
      | some e =>
        by_cases hp : a.Pending t'
        · simp [Account.after, hp] at ht'
        · have hold : t' ∉ a.damaged := by simpa [Account.after, hp] using ht'
          have hw := h.whole t' hold
          refine ⟨fun hq => (hnotPending hq).elim, fun hg => ?_, hw.rewritten⟩
          by_cases hm : t' ∈ a.committed
          · exact hw.gone (hg.imp id fun hab => by simpa [Account.after, hm] using hab)
          · -- not pending and not committed: it was not prepared, or it was aborted
            refine hw.gone (or_iff_not_imp_left.2 fun hsome => ?_)
            by_contra hab
            exact hp ⟨Option.isSome_iff_ne_none.2 hsome, hm, hab⟩
    · have hold : t' ∉ a.damaged := by
        cases fault with
        | none => simpa [Account.after, heq] using ht'
        | some e => by_cases hp : a.Pending t <;> simpa [Account.after, hp, heq] using ht'
      refine (h.whole t' hold).congr ?_ rfl Iff.rfl ?_
      · cases fault <;> simp [filesystemTwoPhaseSink, lookup_erase, heq]
      · by_cases hm : t ∈ a.committed <;> simp [Account.after, hm, heq]

/-- **One call of the sink that writes files.** -/
theorem Stored.call (h : Stored encode s a) {c : Call τ ρ} (hkeep : KeepsFile encode a c) :
    Stored encode ((filesystemTwoPhaseSink encode name).call s c).2
      (a.after ((filesystemTwoPhaseSink encode name).call s c).1 c) := by
  cases c with
  | stage r =>
    refine ⟨h.sound.after _ _, ?_, h.committed, fun t ht => (h.whole t ht).congr rfl rfl Iff.rfl Iff.rfl⟩
    exact List.reverse_cons.trans (congrArg (· ++ [r]) h.staged)
  | prepare t extra w => exact h.prepare hkeep _
  | commit t fault => exact h.commit hkeep
  | abort t fault => exact h.abort fault _
  | discardStaged =>
    exact ⟨h.sound.after _ _, rfl, h.committed, fun t ht => (h.whole t ht).congr rfl rfl Iff.rfl Iff.rfl⟩
  | recover => exact h

end Files

/-! ## Runs -/

/-- **What is visible is what the account says**: the rows of the committed transactions,
    each of them once, and a commit that is made now adds those of its own transaction. -/
structure ExactlyOnce (sink : TwoPhaseSink σ τ ρ) (seen : σ → List ρ) (s : σ) (a : Account τ ρ) : Prop where
  sound : a.Sound
  visible : seen s = a.visible
  retry (t : τ) : a.Pending t →
    (sink.commit t none s).1 = .ok ∧ seen (sink.commit t none s).2 = a.visible ++ a.rowsOf t

/-- The same of the files: one for each committed transaction, with its rows. -/
structure FilesExactlyOnce (encode : ρ → List UInt8) (sink : TwoPhaseSink (Filesystem τ ρ) τ ρ)
    (s : Filesystem τ ρ) (a : Account τ ρ) : Prop where
  sound : a.Sound
  files (t : τ) : lookup t s.committed = if t ∈ a.committed then some (body encode (a.rowsOf t)) else none
  retry (t : τ) : a.Pending t → t ∉ a.damaged →
    (sink.commit t none s).1 = .ok ∧
      lookup t (sink.commit t none s).2.committed = some (body encode (a.rowsOf t))

/-- In every run of calls that keep to `allowed`, `good` holds of the state reached. -/
def Follows (sink : TwoPhaseSink σ τ ρ) (new : σ) (allowed : Account τ ρ → Call τ ρ → Prop)
    (good : σ → Account τ ρ → Prop) : Prop :=
  ∀ calls s a, Along (perform sink) (fun x c => allowed x.2 c) (new, Account.new) calls →
    run (perform sink) (new, Account.new) calls = some (s, a) → good s a

theorem Follows.of_call {sink : TwoPhaseSink σ τ ρ} {new : σ} {allowed : Account τ ρ → Call τ ρ → Prop}
    {good inv : σ → Account τ ρ → Prop} (hnew : inv new Account.new)
    (hcall : ∀ s a c, inv s a → allowed a c → inv (sink.call s c).2 (a.after (sink.call s c).1 c))
    (hgood : ∀ s a, inv s a → good s a) : Follows sink new allowed good := by
  intro calls s a halong hrun
  refine hgood s a (run_invariant (I := fun x => inv x.1 x.2) ?_ hnew halong hrun)
  intro x c x' hx hc hstep
  obtain rfl := Option.some.inj hstep
  exact hcall x.1 x.2 c hx hc

theorem Agrees.exactlyOnce {sink : TwoPhaseSink σ τ ρ} {staged : σ → List ρ} {batches : σ → AssocMap τ (List ρ)}
    {seen : σ → List ρ} {throws : Option String → Prop} (hb : Buffering sink staged batches seen throws)
    (hup : ¬throws none) {s : σ} {a : Account τ ρ} (h : Agrees staged batches seen s a) :
    ExactlyOnce sink seen s a := by
  refine ⟨h.sound, h.seen, fun t hp => ?_⟩
  obtain ⟨hok, hseen⟩ := hb.commit_ok s t none hup
  refine ⟨hok, ?_⟩
  rw [hseen, h.seen, h.batches, Account.owed_of_pending hp]

theorem Stored.exactlyOnce {encode : ρ → List UInt8} (name : String) {s : Filesystem τ ρ} {a : Account τ ρ}
    (h : Stored encode s a) : FilesExactlyOnce encode (filesystemTwoPhaseSink encode name) s a := by
  refine ⟨h.sound, h.committed, fun t hp hd => ?_⟩
  have hfile := (h.whole t hd).pending hp
  unfold filesystemTwoPhaseSink
  simp [hfile]

theorem Agrees.new {staged : σ → List ρ} {batches : σ → AssocMap τ (List ρ)} {seen : σ → List ρ} {s : σ}
    (hstaged : staged s = []) (hbatches : batches s = []) (hseen : seen s = []) :
    Agrees staged batches seen s Account.new :=
  ⟨Account.Sound.new, hstaged, fun t => by rw [hbatches]; rfl, hseen⟩

theorem Stored.new (encode : ρ → List UInt8) : Stored encode (Filesystem.new : Filesystem τ ρ) Account.new :=
  ⟨Account.Sound.new, rfl, fun _ => rfl, fun _ _ =>
    ⟨fun hp => absurd hp.1 Bool.false_ne_true, fun _ => rfl, fun hm => absurd hm List.not_mem_nil⟩⟩

/-- Transaction 7 is committed at the second attempt and once more, transaction 8 is aborted. -/
def retriedCalls (fault : Option String) : List (Call Nat Nat) :=
  [.stage 1, .prepare 7 [2] .done, .prepare 7 [1, 2] .done, .commit 7 fault, .commit 7 none, .commit 7 none,
    .stage 3, .prepare 8 [] .done, .abort 8 none, .commit 8 none]

end Wireform.Kafka.Streams.TwoPhase
