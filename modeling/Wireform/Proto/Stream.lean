/-
  Streaming decoders for length-delimited messages (`Proto.Decode.Stream`).

  The continuations of the two push decoders are defunctionalized: a `Partial`
  result holds the variables that its continuation captures, and `resume`
  applies it.
-/
import Wireform.Proto.Primitives
import Wireform.Resumable

namespace Wireform.Proto

variable {α : Type}

theorem Run.not_fault (h : (fault : Run α) ≠ .fault ∧ (fault : Run α) ≠ .more) : False := h.1 rfl

theorem Run.not_more (h : (more : Run α) ≠ .fault ∧ (more : Run α) ≠ .more) : False := h.2 rfl

/-- The result of a run that ends, as an `Except`. -/
def Run.toExcept : (r : Run α) → r ≠ .fault ∧ r ≠ .more → Except DecodeError α
  | .right a, _ => .ok a
  | .left e, _ => .error e
  | .fault, h => (Run.not_fault h).elim
  | .more, h => (Run.not_more h).elim

theorem MessageDecoder.runDecoder_ends (m : MessageDecoder α) (bs : ByteString) :
    runDecoder m.run bs ≠ .fault ∧ runDecoder m.run bs ≠ .more := by
  have hends := m.ends bs
  unfold runDecoder
  split
  · split <;> simp
  · simp
  · rename_i h; exact absurd h hends.1
  · rename_i h; exact absurd h hends.2

/-- Decode a message from a whole byte string. -/
def decodeMessage (m : MessageDecoder α) (bs : ByteString) : Except DecodeError α :=
  (runDecoder m.run bs).toExcept (m.runDecoder_ends bs)

/-! ## Stream decoding -/

/-- The loop of `getVarintLazy`. -/
def getVarintLazy.go : UInt64 → Nat → ByteString → Except DecodeError (UInt64 × ByteString)
  | acc, shift, bs =>
    if shift > 63 then .error .invalidVarint
    else
      match bs with
      | [] => .error .unexpectedEnd
      | b :: rest =>
        if b < 0x80 then .ok (acc ||| varintBits b shift, rest)
        else go (acc ||| varintBits b shift) (shift + 7) rest

attribute [grind =] getVarintLazy.go

def getVarintLazy (bs : ByteString) : Except DecodeError (UInt64 × ByteString) :=
  getVarintLazy.go 0 0 bs

theorem getVarintLazy_go_stop {shift : Nat} (hs : shift > 63) (acc : UInt64) (bs : ByteString) :
    getVarintLazy.go acc shift bs = .error .invalidVarint := by
  cases bs <;> simp [getVarintLazy.go, hs]

theorem getVarintLazy_go_cons {shift : Nat} (hs : shift ≤ 63) (acc : UInt64) (b : UInt8)
    (rest : ByteString) : getVarintLazy.go acc shift (b :: rest) =
      if b < 0x80 then .ok (acc ||| varintBits b shift, rest)
      else getVarintLazy.go (acc ||| varintBits b shift) (shift + 7) rest := by
  rw [getVarintLazy.go, if_neg (not_lt.2 hs)]

theorem getVarintLazy_go_nil {shift : Nat} (hs : shift ≤ 63) (acc : UInt64) :
    getVarintLazy.go acc shift [] = .error .unexpectedEnd := by
  rw [getVarintLazy.go, if_neg (not_lt.2 hs)]

/-- The first message of a non-empty stream, and the stream after it unless
    decoding stops there. -/
def streamHead (m : MessageDecoder α) (lbs : ByteString) :
    Except DecodeError α × Option ByteString :=
  match getVarintLazy lbs with
  | .error e => (.error e, none)
  | .ok (len, rest) =>
    let msgLen := ofWord len
    let msgBytes := rest.take msgLen.toNat
    let remaining := rest.drop msgLen.toNat
    if (msgBytes.length : Int) < msgLen then (.error .unexpectedEnd, none)
    else (decodeMessage m msgBytes, some remaining)

theorem getVarintLazy_go_length : ∀ (bs : ByteString) (acc : UInt64) (shift : Nat) {w : UInt64}
    {rest : ByteString}, getVarintLazy.go acc shift bs = .ok (w, rest) → rest.length < bs.length
  | [], acc, shift, w, rest, h => by unfold getVarintLazy.go at h; split at h <;> simp at h
  | b :: bs, acc, shift, w, rest, h => by
    unfold getVarintLazy.go at h
    split at h
    · simp at h
    · simp only at h
      split at h
      · simp only [Except.ok.injEq, Prod.mk.injEq] at h; simp [h.2]
      · have := getVarintLazy_go_length bs _ _ h
        simp only [List.length_cons]; omega

theorem streamHead_length {m : MessageDecoder α} {lbs remaining : ByteString}
    {r : Except DecodeError α} (h : streamHead m lbs = (r, some remaining)) :
    remaining.length < lbs.length := by
  unfold streamHead at h
  split at h
  · simp at h
  · rename_i len rest hv
    have hlt : rest.length < lbs.length := getVarintLazy_go_length lbs 0 0 hv
    simp only at h
    split at h
    · simp at h
    · simp only [Prod.mk.injEq, Option.some.injEq] at h
      rw [← h.2, List.length_drop]; omega

/-- Decode a stream of length-delimited messages. -/
def decodeMessageStream (m : MessageDecoder α) (lbs : ByteString) : List (Except DecodeError α) :=
  if lbs = [] then []
  else
    match _h : streamHead m lbs with
    | (r, none) => [r]
    | (r, some remaining) => r :: decodeMessageStream m remaining
termination_by lbs.length
decreasing_by exact streamHead_length _h

/-! ## Incremental push-based decoding -/

/-- The variables captured by a continuation waiting for more input. -/
inductive IWaiting where
  | varint (acc : UInt64) (shift : Nat)
  | body (needed have_ : Int) (acc : List ByteString)
  deriving DecidableEq

/-- Result of an incremental decode step. -/
inductive IDecode (α : Type) where
  | iDone (a : α) (leftover : ByteString)
  | iFail (e : DecodeError) (leftover : ByteString)
  | iPartial (k : IWaiting)

def reassemble (acc : List ByteString) : ByteString := acc.reverse.flatten

/-- The bytes of the message, from the pieces collected in reverse. -/
def messageBytes (needed : Int) (acc : List ByteString) : ByteString :=
  match acc with
  | [single] => if (single.length : Int) = needed then single else [single].reverse.flatten
  | _ => acc.reverse.flatten

def finishDecode (m : MessageDecoder α) (needed : Int) (acc : List ByteString)
    (leftover : ByteString) : IDecode α :=
  match decodeMessage m (messageBytes needed acc) with
  | .error e => .iFail e leftover
  | .ok a => .iDone a leftover

/-- `goBody` on an empty buffer. -/
def goBodyNull (m : MessageDecoder α) (needed have_ : Int) (acc : List ByteString) : IDecode α :=
  if have_ ≥ needed then finishDecode m needed acc [] else .iPartial (.body needed have_ acc)

def goBody (m : MessageDecoder α) (needed have_ : Int) (acc : List ByteString) (buf : ByteString) :
    IDecode α :=
  if buf = [] then goBodyNull m needed have_ acc
  else if (buf.length : Int) ≥ needed - have_ then
    finishDecode m needed (buf.take (needed - have_).toNat :: acc)
      (buf.drop (needed - have_).toNat)
  else goBodyNull m needed (have_ + buf.length) (buf :: acc)

def goVarint (m : MessageDecoder α) : UInt64 → Nat → ByteString → IDecode α
  | acc, shift, buf =>
    if shift > 63 then .iFail .invalidVarint buf
    else
      match buf with
      | [] => .iPartial (.varint acc shift)
      | b :: rest =>
        if b < 0x80 then
          if ofWord (acc ||| varintBits b shift) < 0 then .iFail .negativeLength rest
          else goBody m (ofWord (acc ||| varintBits b shift)) 0 [] rest
        else goVarint m (acc ||| varintBits b shift) (shift + 7) rest

/-- Apply a continuation to the next chunk, or to the end of the input. -/
def IWaiting.resume (m : MessageDecoder α) : IWaiting → Option ByteString → IDecode α
  | .varint _ _, none => .iFail .unexpectedEnd []
  | .varint acc shift, some bs => goVarint m acc shift bs
  | .body _ _ acc, none => .iFail .unexpectedEnd (reassemble acc)
  | .body needed have_ acc, some bs => goBody m needed have_ acc bs

def decodeMessageIncremental (m : MessageDecoder α) : IDecode α := goVarint m 0 0 []

/-- Feed a chunk of input to an incremental decoder. -/
def feedChunk (m : MessageDecoder α) : IDecode α → ByteString → IDecode α
  | .iPartial k, bs => k.resume m (some bs)
  | d, _ => d

/-! ## Pull-based incremental decoding -/

/-- The message of a failed step: a text, or a shown error. -/
inductive FailText where
  | text (s : String)
  | shown (e : DecodeError)
  deriving DecidableEq

/-- Result of a pull-based incremental decode step. -/
inductive DecodeStep (α : Type) where
  | done (a : α) (leftover : ByteString)
  | partial_ (k : IWaiting)
  | fail (msg : FailText)

def dsFinish (m : MessageDecoder α) (needed : Int) (acc : List ByteString)
    (leftover : ByteString) : DecodeStep α :=
  match decodeMessage m (messageBytes needed acc) with
  | .error e => .fail (.shown e)
  | .ok a => .done a leftover

/-- `dsBody` on an empty buffer. -/
def dsBodyNull (m : MessageDecoder α) (needed have_ : Int) (acc : List ByteString) : DecodeStep α :=
  if have_ ≥ needed then dsFinish m needed acc [] else .partial_ (.body needed have_ acc)

def dsBody (m : MessageDecoder α) (needed have_ : Int) (acc : List ByteString) (buf : ByteString) :
    DecodeStep α :=
  if buf = [] then dsBodyNull m needed have_ acc
  else if (buf.length : Int) ≥ needed - have_ then
    dsFinish m needed (buf.take (needed - have_).toNat :: acc) (buf.drop (needed - have_).toNat)
  else dsBodyNull m needed (have_ + buf.length) (buf :: acc)

def dsVarint (m : MessageDecoder α) : UInt64 → Nat → ByteString → DecodeStep α
  | acc, shift, buf =>
    if shift > 63 then .fail (.text "varint overflow")
    else
      match buf with
      | [] => .partial_ (.varint acc shift)
      | b :: rest =>
        if b < 0x80 then
          if ofWord (acc ||| varintBits b shift) < 0 then .fail (.text "negative message length")
          else dsBody m (ofWord (acc ||| varintBits b shift)) 0 [] rest
        else dsVarint m (acc ||| varintBits b shift) (shift + 7) rest

/-- Apply a continuation; an empty chunk signals the end of the input. -/
def IWaiting.more (m : MessageDecoder α) : IWaiting → ByteString → DecodeStep α
  | .varint acc shift, more =>
    if more = [] then .fail (.text "unexpected end of input in varint")
    else dsVarint m acc shift more
  | .body needed have_ acc, more =>
    if more = [] then .fail (.text "unexpected end of input in body")
    else dsBody m needed have_ acc more

def streamDecode (m : MessageDecoder α) : ByteString → DecodeStep α := dsVarint m 0 0

/-- Feed more bytes into a `partial_` continuation. -/
def feedMore (m : MessageDecoder α) : DecodeStep α → ByteString → DecodeStep α
  | .partial_ k, bs => k.more m bs
  | step, _ => step

end Wireform.Proto
