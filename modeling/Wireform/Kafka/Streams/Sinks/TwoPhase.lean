/-
  The reference sinks with two-phase commit.

  The rows of a cycle are staged one by one, prepared under a transaction and made
  visible by its commit.  Every call may be made again, and what a call does
  downstream may fail: the failure is part of the call.

  * `TwoPhaseSink`: what a sink does at each call;
  * `inMemoryTwoPhaseSink`: prepared batches and a history, both in memory;
  * `filesystemTwoPhaseSink`: a file for each batch, renamed by the commit;
  * `httpEchoTwoPhaseSink`: a callback that gets the batch.
-/
import Wireform.Filing

namespace Wireform.Kafka.Streams.TwoPhase

open AssocMap

inductive SinkOutcome where
  | ok
  | retryable (reason : String)
  | fatal (reason : String)
deriving DecidableEq, Repr

/-- How the writing of a file goes: it throws before the file is opened, or with the
    first `left` bytes written. -/
inductive Write where
  | done
  | failed (e : String) (left : Option Nat)
deriving DecidableEq, Repr

structure TwoPhaseSink (σ τ ρ : Type) where
  name : String
  stage : ρ → σ → σ
  /-- The batch of the caller comes after the rows that were staged. -/
  prepare : τ → List ρ → Write → σ → SinkOutcome × σ
  /-- `fault` is what the rename or the callback throws. -/
  commit : τ → (fault : Option String) → σ → SinkOutcome × σ
  /-- `fault` is what the removal of the file throws. -/
  abort : τ → (fault : Option String) → σ → SinkOutcome × σ
  /-- Drop what was staged since the last `prepare`. -/
  discardStaged : σ → σ
  /-- The transactions that are prepared. -/
  recover : σ → List τ

variable {τ ρ : Type} [LinearOrder τ]

/-! ## In memory -/

/-- What was staged and what was committed is stored in reverse order. -/
structure InMemory (τ ρ : Type) where
  staged : List ρ
  prepared : AssocMap τ (List ρ)
  committed : List ρ

def InMemory.new : InMemory τ ρ := ⟨[], [], []⟩

def InMemory.readCommittedRows (s : InMemory τ ρ) : List ρ := s.committed.reverse

def inMemoryTwoPhaseSink (name : String) : TwoPhaseSink (InMemory τ ρ) τ ρ where
  name := name
  stage r s := { s with staged := r :: s.staged }
  prepare t extra _ s :=
    (.ok, { s with staged := [], prepared := insert t (s.staged.reverse ++ extra) s.prepared })
  commit t _ s :=
    let s' := { s with prepared := erase t s.prepared }
    match lookup t s.prepared with
    | none => (.ok, s') -- already committed: idempotent
    | some rows => (.ok, { s' with committed := rows.reverse ++ s.committed })
  abort t _ s := (.ok, { s with prepared := erase t s.prepared })
  discardStaged s := { s with staged := [] }
  recover s := s.prepared.map Prod.fst

/-! ## Files -/

/-- The two directories, with the batch files of the transactions. -/
structure Filesystem (τ ρ : Type) where
  staged : List ρ
  prepared : AssocMap τ (List UInt8)
  committed : AssocMap τ (List UInt8)

def Filesystem.new : Filesystem τ ρ := ⟨[], [], []⟩

/-- The rows, separated by newlines. -/
def body (encode : ρ → List UInt8) (rows : List ρ) : List UInt8 := [10].intercalate (rows.map encode)

def filesystemTwoPhaseSink (encode : ρ → List UInt8) (name : String) : TwoPhaseSink (Filesystem τ ρ) τ ρ where
  name := name
  stage r s := { s with staged := r :: s.staged }
  prepare t extra w s :=
    let s' := { s with staged := [] }
    let text := body encode (s.staged.reverse ++ extra)
    match w with
    | .done => (.ok, { s' with prepared := insert t text s.prepared })
    | .failed e none => (.retryable ("write prepared: " ++ e), s')
    | .failed e (some left) =>
      (.retryable ("write prepared: " ++ e), { s' with prepared := insert t (text.take left) s.prepared })
  commit t fault s :=
    match lookup t s.prepared, fault with
    | none, _ => (.ok, s) -- already committed: idempotent
    | some text, none =>
      (.ok, { s with prepared := erase t s.prepared, committed := insert t text s.committed })
    | some _, some e => (.retryable ("rename: " ++ e), s)
  abort t fault s :=
    match fault with
    | none => (.ok, { s with prepared := erase t s.prepared })
    | some _ => (.ok, s)
  discardStaged s := { s with staged := [] }
  recover s := s.prepared.map Prod.fst

/-! ## A callback -/

/-- `delivered` are the batches the callback took, the latest last. -/
structure HttpEcho (τ ρ : Type) where
  staged : List ρ
  buf : AssocMap τ (List ρ)
  delivered : List (List ρ)

def HttpEcho.new : HttpEcho τ ρ := ⟨[], [], []⟩

def httpEchoTwoPhaseSink (name : String) : TwoPhaseSink (HttpEcho τ ρ) τ ρ where
  name := name
  stage r s := { s with staged := r :: s.staged }
  prepare t extra _ s := (.ok, { s with staged := [], buf := insert t (s.staged.reverse ++ extra) s.buf })
  commit t fault s :=
    -- the batch leaves the buffer before the callback has taken it
    let s' := { s with buf := erase t s.buf }
    match lookup t s.buf, fault with
    | none, _ => (.ok, s') -- already committed
    | some rows, none => (.ok, { s' with delivered := s.delivered ++ [rows] })
    | some _, some e => (.retryable ("onCommit: " ++ e), s')
  abort t _ s := (.ok, { s with buf := erase t s.buf })
  discardStaged s := { s with staged := [] }
  recover s := s.buf.map Prod.fst

/-! ## Calls -/

inductive Call (τ ρ : Type) where
  | stage (r : ρ)
  | prepare (t : τ) (extra : List ρ) (w : Write)
  | commit (t : τ) (fault : Option String)
  | abort (t : τ) (fault : Option String)
  | discardStaged
  | recover
deriving DecidableEq, Repr

/-- A call, with what it returns. -/
def TwoPhaseSink.call {σ : Type} (sink : TwoPhaseSink σ τ ρ) (s : σ) : Call τ ρ → SinkOutcome × σ
  | .stage r => (.ok, sink.stage r s)
  | .prepare t extra w => sink.prepare t extra w s
  | .commit t fault => sink.commit t fault s
  | .abort t fault => sink.abort t fault s
  | .discardStaged => (.ok, sink.discardStaged s)
  | .recover => (.ok, s)

end Wireform.Kafka.Streams.TwoPhase
