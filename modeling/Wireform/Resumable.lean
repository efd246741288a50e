/-
  Resumable consumers: state machines fed with chunks of a stream.

  A machine takes the next chunk, or the news that the stream has ended, and
  stops or waits for more.  `run_flatten`: a machine that has a meaning on
  whole streams, which feeding a chunk respects, gives that meaning for every
  way of cutting the stream into non-empty chunks.
-/
import Mathlib.Data.List.Basic

namespace Wireform.Resumable

variable {σ β ε α : Type}

/-- What a machine does with a chunk: stop with a value and what is left of the
    chunk, stop with an error, or wait for more in a new state. -/
inductive Step (σ β ε α : Type) where
  | done (a : α) (leftover : List β)
  | fail (e : ε)
  | wait (s : σ)

structure Machine (σ β ε α : Type) where
  feed : σ → List β → Step σ β ε α
  eof : σ → ε

/-- The meaning of a step, given that of the states, on the rest of the
    stream. -/
def Step.denote (den : σ → List β → Except ε (α × List β)) :
    Step σ β ε α → List β → Except ε (α × List β)
  | .done a leftover, rest => .ok (a, leftover ++ rest)
  | .fail e, _ => .error e
  | .wait s, rest => den s rest

/-- The state a step waits in satisfies `I`. -/
def Step.All (I : σ → Prop) : Step σ β ε α → Prop
  | .wait s => I s
  | _ => True

/-- Feed chunks in order, then the end of the stream.  Chunks after the stop
    are left over. -/
def Machine.run (M : Machine σ β ε α) : Step σ β ε α → List (List β) → Except ε (α × List β)
  | .done a leftover, cs => .ok (a, leftover ++ cs.flatten)
  | .fail e, _ => .error e
  | .wait s, [] => .error (M.eof s)
  | .wait s, c :: cs => M.run (M.feed s c) cs

/-- A meaning of the states of `M` under an invariant `I`, for chunks in
    `C`. -/
structure Denotes (M : Machine σ β ε α) (I : σ → Prop) (C : List β → Prop)
    (den : σ → List β → Except ε (α × List β)) : Prop where
  inv : ∀ s c, I s → C c → (M.feed s c).All I
  feed : ∀ s c rest, I s → C c → (M.feed s c).denote den rest = den s (c ++ rest)
  eof : ∀ s, I s → den s [] = .error (M.eof s)

/-- **Only the concatenation of the chunks matters.** -/
theorem run_flatten {M : Machine σ β ε α} {I : σ → Prop} {C : List β → Prop}
    {den : σ → List β → Except ε (α × List β)} (h : Denotes M I C den) :
    ∀ (cs : List (List β)) (st : Step σ β ε α), st.All I → (∀ c ∈ cs, C c) →
      M.run st cs = st.denote den cs.flatten
  | cs, .done a leftover, _, _ => by simp [Machine.run, Step.denote]
  | cs, .fail e, _, _ => by simp [Machine.run, Step.denote]
  | [], .wait s, hs, _ => by
    rw [Machine.run, List.flatten_nil]
    exact (h.eof s hs).symm
  | c :: cs, .wait s, hs, hcs => by
    have hc : C c := hcs c (by simp)
    rw [Machine.run, run_flatten h cs _ (h.inv s c hs hc) fun c' hc' => hcs c' (by simp [hc']),
      h.feed s c _ hs hc]
    rfl

end Wireform.Resumable
