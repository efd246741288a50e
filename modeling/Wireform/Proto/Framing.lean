/-
  The three framing decoders agree.

  * `incrementalOutcome` and `pullOutcome` feed a list of chunks and then the
    end of the input; what follows the message, in the last chunk used and in
    the chunks after it, is left over;
  * `incremental_frame`: for every chunking, the incremental decoder computes
    `frame`, a function of the whole stream (`Resumable.run_flatten`);
  * `framing_iff`: the three decoders agree on every chunking, unless the length
    prefix does not fit a signed 64-bit integer and the message decoder accepts
    the empty message.
-/
import Wireform.Proto.Stream

namespace Wireform.Proto

open Resumable

variable {α : Type} (m : MessageDecoder α)

/-! ## Runs over chunks -/

/-- Feed the chunks, then `Nothing`. -/
def IDecode.feedAll : IDecode α → List ByteString → Except DecodeError (α × ByteString)
  | .iDone a leftover, cs => .ok (a, leftover ++ cs.flatten)
  | .iFail e _, _ => .error e
  | .iPartial k, [] =>
    match k.resume m none with
    | .iDone a leftover => .ok (a, leftover)
    | .iFail e _ => .error e
    | .iPartial _ => .error .unexpectedEnd
  | .iPartial k, c :: cs => (feedChunk m (.iPartial k) c).feedAll cs

attribute [grind =] IDecode.feedAll

/-- The outcome of `decodeMessageIncremental` on a list of chunks. -/
def incrementalOutcome (cs : List ByteString) : Except DecodeError (α × ByteString) :=
  (decodeMessageIncremental m).feedAll m cs

/-- Feed the chunks, then an empty one. -/
def DecodeStep.feedAll : DecodeStep α → List ByteString → Option (α × ByteString)
  | .done a leftover, cs => some (a, leftover ++ cs.flatten)
  | .fail _, _ => none
  | .partial_ k, [] =>
    match feedMore m (.partial_ k) [] with
    | .done a leftover => some (a, leftover)
    | _ => none
  | .partial_ k, c :: cs => (feedMore m (.partial_ k) c).feedAll cs

/-- The outcome of `streamDecode` on the first chunk and `feedMore` on the
    others. -/
def pullOutcome : List ByteString → Option (α × ByteString)
  | [] => (streamDecode m []).feedAll m []
  | c :: cs => (streamDecode m c).feedAll m cs

/-! ## The frame of a stream -/

/-- `needed` more bytes complete the message that starts with `sofar`. -/
def frameBody (needed : Int) (sofar s : ByteString) : Except DecodeError (α × ByteString) :=
  if (s.length : Int) ≥ needed then
    (decodeMessage m (sofar ++ s.take needed.toNat)).map (·, s.drop needed.toNat)
  else .error .unexpectedEnd

/-- The body of a message, after its length prefix. -/
def frameAfter (len : UInt64) (rest : ByteString) : Except DecodeError (α × ByteString) :=
  if ofWord len < 0 then .error .negativeLength else frameBody m (ofWord len) [] rest

/-- The first message of a whole stream and what follows it. -/
def frame (s : ByteString) : Except DecodeError (α × ByteString) :=
  match getVarintLazy s with
  | .ok (len, rest) => frameAfter m len rest
  | .error e => .error e

/-- What a waiting decoder does with the rest of the stream. -/
def IWaiting.denote : IWaiting → ByteString → Except DecodeError (α × ByteString)
  | .varint acc shift, s =>
    match getVarintLazy.go acc shift s with
    | .ok (len, rest) => frameAfter m len rest
    | .error e => .error e
  | .body needed have_ acc, s => frameBody m (needed - have_) (reassemble acc) s

attribute [grind =] IWaiting.denote

/-- A waiting decoder has room for a varint byte, or lacks some of the body. -/
def IWaiting.Ok : IWaiting → Prop
  | .varint _ shift => shift ≤ 63
  | .body needed have_ acc => have_ < needed ∧ ((reassemble acc).length : Int) = have_

def IDecode.step : IDecode α → Step IWaiting UInt8 DecodeError α
  | .iDone a leftover => .done a leftover
  | .iFail e _ => .fail e
  | .iPartial k => .wait k

attribute [grind =] IDecode.step

/-- The incremental decoder as a machine. -/
def incrementalMachine : Machine IWaiting UInt8 DecodeError α where
  feed k c := (k.resume m (some c)).step
  eof _ := .unexpectedEnd

theorem resume_none (k : IWaiting) : ∃ rest, k.resume m none = .iFail .unexpectedEnd rest := by
  cases k <;> exact ⟨_, rfl⟩

theorem feedAll_eq_run : ∀ (cs : List ByteString) (d : IDecode α),
    d.feedAll m cs = (incrementalMachine m).run d.step cs
  | cs, .iDone a leftover => by simp [IDecode.feedAll, IDecode.step, Machine.run]
  | cs, .iFail e rest => by simp [IDecode.feedAll, IDecode.step, Machine.run]
  | [], .iPartial k => by
    obtain ⟨rest, hk⟩ := resume_none m k
    simp [IDecode.feedAll, IDecode.step, Machine.run, hk, incrementalMachine]
  | c :: cs, .iPartial k => by
    rw [IDecode.feedAll, feedAll_eq_run cs]
    rfl

@[simp] theorem messageBytes_eq (needed : Int) (acc : List ByteString) :
    messageBytes needed acc = reassemble acc := by
  unfold messageBytes reassemble
  split
  · split <;> simp
  · rfl

theorem finishDecode_step (needed : Int) (acc : List ByteString) (leftover rest : ByteString) :
    (finishDecode m needed acc leftover).step.denote (IWaiting.denote m) rest =
      (decodeMessage m (reassemble acc)).map (·, leftover ++ rest) := by
  unfold finishDecode
  rw [messageBytes_eq]
  cases decodeMessage m (reassemble acc) <;> rfl

theorem finishDecode_ok (needed : Int) (acc : List ByteString) (leftover : ByteString) :
    (finishDecode m needed acc leftover).step.All IWaiting.Ok := by
  unfold finishDecode
  split <;> trivial

theorem frameBody_zero (sofar s : ByteString) :
    frameBody m 0 sofar s = (decodeMessage m sofar).map (·, s) := by
  simp [frameBody]

variable {acc : List ByteString} {needed have_ : Int}

theorem goBodyNull_step (hle : have_ ≤ needed)
    (rest : ByteString) :
    (goBodyNull m needed have_ acc).step.denote (IWaiting.denote m) rest =
      frameBody m (needed - have_) (reassemble acc) rest := by
  unfold goBodyNull
  split
  · rw [finishDecode_step, show needed - have_ = 0 by omega, frameBody_zero]
    rfl
  · rfl

theorem goBodyNull_ok
    (hlen : ((reassemble acc).length : Int) = have_) :
    (goBodyNull m needed have_ acc).step.All IWaiting.Ok := by
  unfold goBodyNull
  split
  · exact finishDecode_ok m _ _ _
  · exact ⟨by omega, hlen⟩

theorem reassemble_cons (c : ByteString) (acc : List ByteString) :
    reassemble (c :: acc) = reassemble acc ++ c := by
  simp [reassemble]

theorem goBody_step (hle : have_ ≤ needed)
    (buf rest : ByteString) :
    (goBody m needed have_ acc buf).step.denote (IWaiting.denote m) rest =
      frameBody m (needed - have_) (reassemble acc) (buf ++ rest) := by
  unfold goBody
  split
  · rename_i hb; subst hb
    exact goBodyNull_step m hle rest
  split
  · rename_i hge
    rw [finishDecode_step, reassemble_cons]
    unfold frameBody
    rw [if_pos (by simp only [List.length_append, Nat.cast_add]; omega),
      List.take_append_of_le_length (by omega), List.drop_append_of_le_length (by omega)]
  · rename_i hlt
    rw [goBodyNull_step m (by omega), reassemble_cons]
    unfold frameBody
    have hn : (needed - have_).toNat = buf.length + (needed - (have_ + buf.length)).toNat := by omega
    by_cases hr : (rest.length : Int) ≥ needed - (have_ + buf.length)
    · rw [if_pos hr, if_pos (by simp only [List.length_append, Nat.cast_add]; omega), hn,
        List.take_length_add_append, List.drop_length_add_append, List.append_assoc]
    · rw [if_neg hr, if_neg (by simp only [List.length_append, Nat.cast_add]; omega)]

theorem goBody_ok
    (hlen : ((reassemble acc).length : Int) = have_) (buf : ByteString) :
    (goBody m needed have_ acc buf).step.All IWaiting.Ok := by
  unfold goBody
  split
  · exact goBodyNull_ok m hlen
  split
  · exact finishDecode_ok m _ _ _
  · exact goBodyNull_ok m (by rw [reassemble_cons, List.length_append]; push_cast; omega)

theorem goVarint_step : ∀ (buf : ByteString) (acc : UInt64) (shift : Nat) (rest : ByteString),
    (goVarint m acc shift buf).step.denote (IWaiting.denote m) rest =
      (IWaiting.varint acc shift).denote m (buf ++ rest)
  | [], acc, shift, rest => by
    unfold goVarint
    split
    · rename_i hs
      simp only [IDecode.step, Step.denote, IWaiting.denote]
      rw [getVarintLazy_go_stop hs]
    · rfl
  | b :: buf, acc, shift, rest => by
    unfold goVarint
    simp only [IWaiting.denote, List.cons_append]
    rw [getVarintLazy.go]
    split
    · rfl
    split
    · simp only [frameAfter]
      split
      · rfl
      · rename_i hneg
        rw [goBody_step m (by omega)]
        simp [reassemble]
    · exact goVarint_step buf _ _ rest

theorem goVarint_ok : ∀ (buf : ByteString) (acc : UInt64) (shift : Nat),
    (goVarint m acc shift buf).step.All IWaiting.Ok
  | [], acc, shift => by
    unfold goVarint
    split
    · trivial
    · rename_i hs; exact not_lt.1 hs
  | b :: buf, acc, shift => by
    unfold goVarint
    split
    · trivial
    simp only
    split
    · split
      · trivial
      · exact goBody_ok m (by simp [reassemble]) _
    · exact goVarint_ok buf _ _

theorem incremental_denotes :
    Denotes (incrementalMachine m) IWaiting.Ok (fun _ => True) (IWaiting.denote m) where
  inv k c hk _ := by
    cases k with
    | varint acc shift => exact goVarint_ok m c acc shift
    | body needed have_ acc => exact goBody_ok m hk.2 c
  feed k c rest hk _ := by
    cases k with
    | varint acc shift => exact goVarint_step m c acc shift rest
    | body needed have_ acc => exact goBody_step m hk.1.le c rest
  eof k hk := by
    cases k with
    | varint acc shift =>
      change shift ≤ 63 at hk
      simp only [IWaiting.denote, getVarintLazy_go_nil hk]
      rfl
    | body needed have_ acc =>
      have := hk.1
      simp only [IWaiting.denote, frameBody]
      rw [if_neg (by simp only [List.length_nil]; omega)]
      rfl

/-- **The incremental decoder computes the frame of the stream**, for every
    chunking. -/
theorem incremental_frame (cs : List ByteString) : incrementalOutcome m cs = frame m cs.flatten := by
  unfold incrementalOutcome
  rw [feedAll_eq_run, decodeMessageIncremental, run_flatten (incremental_denotes m) cs _ (goVarint_ok m [] 0 0) (by simp)]
  exact goVarint_step m [] 0 0 _

/-! ## The pull decoder -/

/-- A step of the pull decoder, its error dropped. -/
def DecodeStep.forget : DecodeStep α → Step IWaiting UInt8 Unit α
  | .done a leftover => .done a leftover
  | .fail _ => .fail ()
  | .partial_ k => .wait k

/-- A step of the incremental decoder, its error dropped. -/
def IDecode.forget : IDecode α → Step IWaiting UInt8 Unit α
  | .iDone a leftover => .done a leftover
  | .iFail _ _ => .fail ()
  | .iPartial k => .wait k

theorem dsFinish_forget (needed : Int) (acc : List ByteString) (leftover : ByteString) :
    (dsFinish m needed acc leftover).forget = (finishDecode m needed acc leftover).forget := by
  unfold dsFinish finishDecode
  split <;> rfl

theorem dsBodyNull_forget (needed have_ : Int) (acc : List ByteString) :
    (dsBodyNull m needed have_ acc).forget = (goBodyNull m needed have_ acc).forget := by
  unfold dsBodyNull goBodyNull
  split
  · exact dsFinish_forget m _ _ _
  · rfl

theorem dsBody_forget (needed have_ : Int) (acc : List ByteString) (buf : ByteString) :
    (dsBody m needed have_ acc buf).forget = (goBody m needed have_ acc buf).forget := by
  unfold dsBody goBody
  split
  · exact dsBodyNull_forget m _ _ _
  split
  · exact dsFinish_forget m _ _ _
  · exact dsBodyNull_forget m _ _ _

theorem dsVarint_forget : ∀ (buf : ByteString) (acc : UInt64) (shift : Nat),
    (dsVarint m acc shift buf).forget = (goVarint m acc shift buf).forget
  | [], acc, shift => by
    unfold dsVarint goVarint
    split <;> rfl
  | b :: buf, acc, shift => by
    unfold dsVarint goVarint
    split
    · rfl
    simp only
    split
    · split
      · rfl
      · exact dsBody_forget m _ _ _ _
    · exact dsVarint_forget buf _ _

theorem more_forget (k : IWaiting) {c : ByteString} (hc : c ≠ []) :
    (k.more m c).forget = (k.resume m (some c)).forget := by
  cases k with
  | varint acc shift =>
    simp only [IWaiting.more, if_neg hc]
    exact dsVarint_forget m c acc shift
  | body needed have_ acc =>
    simp only [IWaiting.more, if_neg hc]
    exact dsBody_forget m needed have_ acc c

/-- Fed with the same chunks, two decoders that agree end alike. -/
theorem feedAll_forget : ∀ (cs : List ByteString) (step : DecodeStep α) (d : IDecode α),
    (∀ c ∈ cs, c ≠ []) → step.forget = d.forget →
      step.feedAll m cs = (d.feedAll m cs).toOption
  | cs, .done a leftover, d, _, h => by
    cases d <;> simp_all [DecodeStep.forget, IDecode.forget, DecodeStep.feedAll, IDecode.feedAll,
      Except.toOption]
  | cs, .fail msg, d, _, h => by
    cases d <;> simp_all [DecodeStep.forget, IDecode.forget, DecodeStep.feedAll, IDecode.feedAll,
      Except.toOption]
  | [], .partial_ k, d, _, h => by
    cases d with
    | iPartial k' =>
      obtain ⟨rest, hk⟩ := resume_none m k'
      simp only [IDecode.feedAll, hk, DecodeStep.feedAll, feedMore]
      cases k <;> rfl
    | _ => cases h
  | c :: cs, .partial_ k, d, hcs, h => by
    cases d with
    | iPartial k' =>
      cases h
      rw [DecodeStep.feedAll, IDecode.feedAll]
      exact feedAll_forget cs _ _ (fun c' hc' => hcs c' (by simp [hc']))
        (more_forget m k (hcs c (by simp)))
    | _ => cases h

/-- **The pull decoder succeeds with the same message and the same left-over
    bytes.** -/
theorem pull_eq_incremental (cs : List ByteString) (hcs : ∀ c ∈ cs, c ≠ []) :
    pullOutcome m cs = (incrementalOutcome m cs).toOption := by
  cases cs with
  | nil => exact feedAll_forget m [] _ _ hcs (dsVarint_forget m [] 0 0)
  | cons c cs =>
    have hinc : incrementalOutcome m (c :: cs) = (goVarint m 0 0 c).feedAll m cs := rfl
    rw [hinc]
    exact feedAll_forget m cs _ _ (fun c' hc' => hcs c' (by simp [hc'])) (dsVarint_forget m c 0 0)

/-! ## The stream decoder -/

/-- The length prefix of the stream does not fit a signed 64-bit integer, and
    the empty message, which the stream decoder takes for its body, is
    accepted. -/
def NegativeLengthAccepted (s : ByteString) : Prop :=
  ∃ len rest a, getVarintLazy s = .ok (len, rest) ∧ 2 ^ 63 ≤ len.toNat ∧ decodeMessage m [] = .ok a

/-- The first element of a stream, with the stream after it, is the outcome:
    the message with the bytes left over, or an error. -/
def HeadAgrees (head : Except DecodeError α × Option ByteString)
    (outcome : Except DecodeError (α × ByteString)) : Prop :=
  (∀ a left, head = (.ok a, some left) ↔ outcome = .ok (a, left)) ∧
    ((∃ e, head.1 = .error e) ↔ ∃ e, outcome = .error e)

theorem headAgrees_map (r : Except DecodeError α) (after : ByteString) :
    HeadAgrees (r, some after) (r.map (·, after)) := by
  cases r with
  | error e => simp [HeadAgrees, Except.map]
  | ok a => simp [HeadAgrees, Except.map]

theorem headAgrees_error (e e' : DecodeError) (after : Option ByteString) :
    HeadAgrees (α := α) (.error e, after) (.error e') := by
  simp [HeadAgrees]

theorem not_headAgrees (a : α) (after : Option ByteString) (e : DecodeError) :
    ¬ HeadAgrees (.ok a, after) (.error e) := by
  simp [HeadAgrees]

theorem decodeMessageStream_cons {s : ByteString} (hs : s ≠ []) :
    decodeMessageStream m s =
      (streamHead m s).1 :: (streamHead m s).2.elim [] (decodeMessageStream m) := by
  rw [decodeMessageStream, if_neg hs]
  split <;> rename_i hh <;> rw [hh] <;> rfl

/-- **The head of the stream is the frame**, unless a length that does not fit
    is accepted. -/
theorem headAgrees_iff (s : ByteString) :
    HeadAgrees (streamHead m s) (frame m s) ↔ ¬ NegativeLengthAccepted m s := by
  unfold NegativeLengthAccepted streamHead frame
  cases getVarintLazy s with
  | error e => exact iff_of_true (headAgrees_error e e none) (by simp)
  | ok lr =>
    obtain ⟨len, rest⟩ := lr
    simp only [frameAfter, frameBody, List.nil_append, List.length_take]
    by_cases hneg : ofWord len < 0
    · have hlen := (ofWord_neg_iff len).1 hneg
      have htake : (ofWord len).toNat = 0 := by omega
      rw [if_neg (by omega), if_pos hneg, htake, List.take_zero, List.drop_zero]
      cases hd : decodeMessage m [] with
      | error e => exact iff_of_true (headAgrees_error e _ _) (by simp)
      | ok a => exact iff_of_false (not_headAgrees a _ _) (not_not.2 ⟨len, rest, a, rfl, hlen, rfl⟩)
    · have hlen : ¬ 2 ^ 63 ≤ len.toNat := fun h => hneg ((ofWord_neg_iff len).2 h)
      have hno : ¬ ∃ len' rest' a, (Except.ok (len, rest) : Except DecodeError _) = .ok (len', rest') ∧
          2 ^ 63 ≤ len'.toNat ∧ decodeMessage m [] = .ok a := by
        rintro ⟨_, _, _, ⟨⟩, h, -⟩; exact hlen h
      refine iff_of_true ?_ hno
      rw [if_neg hneg]
      by_cases hshort : (rest.length : Int) ≥ ofWord len
      · rw [if_neg (by omega), if_pos hshort]
        exact headAgrees_map _ _
      · rw [if_pos (by omega), if_neg hshort]
        exact headAgrees_error _ _ _

/-! ## Agreement -/

/-- **The three decoders agree** on a stream cut into chunks: the incremental
    decoder as on one chunk, the pull decoder with the same message and
    left-over bytes, the stream decoder with the same first element. -/
structure FramingAgrees (s : ByteString) (cs : List ByteString) : Prop where
  whole : incrementalOutcome m cs = incrementalOutcome m [s]
  pull : pullOutcome m cs = (incrementalOutcome m cs).toOption
  stream : s ≠ [] → decodeMessageStream m s =
    (streamHead m s).1 :: (streamHead m s).2.elim [] (decodeMessageStream m)
  first : s ≠ [] → HeadAgrees (streamHead m s) (incrementalOutcome m cs)

/-- **The framing decoders agree for every way of cutting a stream** exactly
    when no length prefix that does not fit a signed 64-bit integer is taken
    for an empty message. -/
theorem framing_iff (s : ByteString) :
    (∀ cs : List ByteString, cs.flatten = s → (∀ c ∈ cs, c ≠ []) → FramingAgrees m s cs) ↔
      ¬ NegativeLengthAccepted m s := by
  constructor
  · intro h
    by_cases hs : s = []
    · subst hs
      rintro ⟨len, rest, a, hv, -⟩
      simp [getVarintLazy, getVarintLazy.go] at hv
    · have := (h [s] (by simp) (by simpa using hs)).first hs
      rw [incremental_frame, List.flatten_singleton, headAgrees_iff] at this
      exact this
  · rintro h cs rfl hcs
    refine ⟨?_, pull_eq_incremental m cs hcs, fun hs => decodeMessageStream_cons m hs, fun _ => ?_⟩
    · rw [incremental_frame, incremental_frame, List.flatten_singleton]
    · rw [incremental_frame]
      exact (headAgrees_iff m _).2 h

/-- The message decoder that takes whatever is there. -/
def anyMessage : MessageDecoder Unit where
  run bs _ := .ok () (bsLen bs)
  ends sub := by simp

/-- A length prefix of `2^63` and nothing else. -/
def negativeLength : ByteString := [0x80, 0x80, 0x80, 0x80, 0x80, 0x80, 0x80, 0x80, 0x80, 0x01]

/-- A length of `2^63` is `NegativeLength` to the incremental decoder, an empty
    message to the stream decoder. -/
theorem negativeLength_framing :
    incrementalOutcome anyMessage [negativeLength] = .error .negativeLength ∧
      decodeMessageStream anyMessage negativeLength = [.ok ()] ∧
      ¬ ∀ (m : MessageDecoder Unit) (s : ByteString) (cs : List ByteString), cs.flatten = s →
        (∀ c ∈ cs, c ≠ []) → FramingAgrees m s cs := by
  have hv : getVarintLazy negativeLength = .ok (0x8000000000000000, []) := by rfl
  have hacc : NegativeLengthAccepted anyMessage negativeLength :=
    ⟨_, _, (), hv, by decide, rfl⟩
  have hhead : streamHead anyMessage negativeLength = (.ok (), some []) := by
    simp only [streamHead, hv]; rfl
  refine ⟨by rw [incremental_frame]; rfl, ?_, fun hall => ?_⟩
  · rw [decodeMessageStream_cons _ (by decide), hhead]
    simp [decodeMessageStream]
  · exact (framing_iff anyMessage negativeLength).1 (fun cs => hall anyMessage _ cs) hacc

end Wireform.Proto
