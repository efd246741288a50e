/-
  Header blocks in several frames (`handleFrame'` of the server, and
  `headerBlockFrames` of `Network.HTTP2.Connection`).

  The receive loop buffers a HEADERS frame without END_HEADERS as it is, and puts
  the CONTINUATION frames behind it; padding and priority are stripped from the
  whole at the end, under the flags of the first frame.

  * `run_frames`: what the decoder is handed for a block sent in any number of
    frames: the padding of the first frame stays, and as many octets are missing
    at the end;
  * `header_block_iff`: this is the block itself if and only if the octets of the
    CONTINUATION frames repeat the padding; and what `headerBlockFrames` makes
    has no padding, so it is read back.
-/
import Mathlib.Data.List.Infix
import Wireform.Http2.Server.Model

namespace Wireform.Http2.HeaderBlocks

open Hpack Server

def flagEndHeaders : FrameFlags := 0x4

inductive FrameType where
  | frameHeaders
  | frameContinuation
  deriving DecidableEq, Repr

structure FrameHeader where
  fhLength : UInt32
  fhType : FrameType
  fhFlags : FrameFlags
  fhStreamId : StreamId
  deriving DecidableEq, Repr

structure Frame where
  hdr : FrameHeader
  body : ByteString
  deriving DecidableEq, Repr

/-! ## Receiving -/

/-- A header block whose end has not come yet. -/
structure Continuation where
  contStreamId : StreamId
  contInitialFlags : FrameFlags
  contBuffer : ByteString
  deriving DecidableEq, Repr

/-- The receive loop, with the blocks that the HPACK decoder was handed. -/
structure Receiver where
  conn : Connection
  contRef : Option Continuation
  handed : List ByteString

/-- The checks of a whole HEADERS frame that come before its payload is stripped. -/
def readsBlock (s : Connection) (sid : StreamId) (flags : FrameFlags) (body : ByteString) : Bool :=
  if sid = 0 then false
  else
    match AssocMap.lookup sid s.streams with
    | some sr => sr.srState = .stOpen && testFlag flags flagEndStream
    | none => sid % 2 = 1 && s.lastPeerStream < sid && ! headersSelfDependency sid flags body

attribute [grind =] readsBlock

/-- The block that the decoder is handed for a whole HEADERS frame, if any. -/
def handedBlock (s : Connection) (sid : StreamId) (flags : FrameFlags) (body : ByteString) :
    Option ByteString :=
  if readsBlock s sid flags body then stripPaddingAndPriority true flags body else none

def Receiver.handleHeaders (r : Receiver) (cfg : Settings) (hdr : FrameHeader) (body : ByteString) : Receiver :=
  if hdr.fhStreamId = 0 then { r with conn := r.conn.closeConnection .protocolError }
  else if testFlag hdr.fhFlags flagEndHeaders = false then
    { r with contRef := some ⟨hdr.fhStreamId, hdr.fhFlags, body⟩ }
  else
    { r with
      conn := r.conn.handleHeaders cfg hdr.fhStreamId hdr.fhFlags body
      handed := r.handed ++ (handedBlock r.conn hdr.fhStreamId hdr.fhFlags body).toList }

def Receiver.handleContinuation (r : Receiver) (cfg : Settings) (hdr : FrameHeader) (body : ByteString) : Receiver :=
  match r.contRef with
  | none => { r with conn := r.conn.closeConnection .protocolError }
  | some c =>
    if c.contStreamId ≠ hdr.fhStreamId then { r with conn := r.conn.closeConnection .protocolError }
    else if testFlag hdr.fhFlags flagEndHeaders then
      let assembled := c.contBuffer ++ body
      let synthHdr := { hdr with
        fhFlags := c.contInitialFlags ||| flagEndHeaders
        fhType := .frameHeaders
        fhLength := UInt32.ofNat assembled.length }
      { r with contRef := none }.handleHeaders cfg synthHdr assembled
    else { r with contRef := some { c with contBuffer := c.contBuffer ++ body } }

def Receiver.handleFrame (r : Receiver) (cfg : Settings) (f : Frame) : Receiver :=
  match f.hdr.fhType with
  | .frameHeaders => r.handleHeaders cfg f.hdr f.body
  | .frameContinuation => r.handleContinuation cfg f.hdr f.body

/-- One turn of the receive loop.  A frame over the limit of the frame size does not
    get here; while a header block is under way, only its CONTINUATION frames do. -/
def Receiver.receive (cfg : Settings) (r : Receiver) (f : Frame) : Receiver :=
  if r.conn.connClosed then r
  else
    match r.contRef with
    | some c =>
      if f.hdr.fhType ≠ .frameContinuation ∨ f.hdr.fhStreamId ≠ c.contStreamId then
        { r with conn := r.conn.closeConnection .protocolError }
      else r.handleFrame cfg f
    | none => r.handleFrame cfg f

attribute [grind =] Receiver.receive

/-- A connection without a header block under way. -/
def Receiver.start (conn : Connection) : Receiver := ⟨conn, none, []⟩

def Receiver.run (cfg : Settings) (r : Receiver) (fs : List Frame) : Receiver := fs.foldl (Receiver.receive cfg) r

/-! ## The decoder -/

/-! ## Sending -/

/-- CONTINUATION frames for pieces of a block. -/
def contFrames (sid : StreamId) : List ByteString → List Frame
  | [] => []
  | [bs] => [⟨⟨UInt32.ofNat bs.length, .frameContinuation, flagEndHeaders, sid⟩, bs⟩]
  | bs :: more => ⟨⟨UInt32.ofNat bs.length, .frameContinuation, 0, sid⟩, bs⟩ :: contFrames sid more

/-- A block in one HEADERS frame and any number of CONTINUATION frames. -/
structure Sending where
  sid : StreamId
  /-- The flags of the HEADERS frame, END_HEADERS apart. -/
  flags : FrameFlags
  pad : ByteString
  priority : ByteString
  first : ByteString
  pieces : List ByteString
  open_flags : testFlag flags flagEndHeaders = false
  pad_le : pad.length ≤ 255
  unpadded : testFlag flags flagPadded = false → pad = []
  priority_length : priority.length = if testFlag flags flagPriority then 5 else 0

namespace Sending

/-- The header block. -/
def block (w : Sending) : ByteString := w.first ++ w.pieces.flatten

/-- The payload of the HEADERS frame. -/
def payload (w : Sending) : ByteString :=
  (if testFlag w.flags flagPadded then [UInt8.ofNat w.pad.length] else []) ++ (w.priority ++ (w.first ++ w.pad))

def frames (w : Sending) : List Frame :=
  ⟨⟨UInt32.ofNat w.payload.length, .frameHeaders,
    if w.pieces = [] then w.flags ||| flagEndHeaders else w.flags, w.sid⟩, w.payload⟩ :: contFrames w.sid w.pieces

theorem frames_of_pieces {w : Sending} (h : w.pieces ≠ []) :
    w.frames = ⟨⟨UInt32.ofNat w.payload.length, .frameHeaders, w.flags, w.sid⟩, w.payload⟩ ::
      contFrames w.sid w.pieces := by rw [frames, if_neg h]

/-- What is left of the frames when padding and priority are taken from the
    whole. -/
def stripped (w : Sending) : ByteString := w.first ++ (w.pad ++ w.pieces.flatten).take w.pieces.flatten.length

/-- The octets behind the first frame repeat its padding. -/
def RepeatsPadding (w : Sending) : Prop := w.pieces.flatten <+: w.pad ++ w.pieces.flatten

theorem stripped_eq_block_iff (w : Sending) : w.stripped = w.block ↔ w.RepeatsPadding := by
  rw [stripped, block, List.append_cancel_left_eq, RepeatsPadding, List.prefix_iff_eq_take, eq_comm]

end Sending

theorem testFlag_or (f g flag : FrameFlags) : testFlag (f ||| g) flag = (testFlag f flag || testFlag g flag) := by
  have hand : (f ||| g) &&& flag = (f &&& flag) ||| (g &&& flag) :=
    UInt8.toBitVec_inj.1 BitVec.and_or_distrib_right
  unfold testFlag
  rw [hand, ← Bool.decide_or]
  refine decide_eq_decide.2 ?_
  rw [ne_eq, UInt8.or_eq_zero_iff, not_and_or]

theorem testFlag_zero (flag : FrameFlags) : testFlag 0 flag = false := by
  rw [testFlag, UInt8.zero_and]
  rfl

theorem endHeaders_set : testFlag flagEndHeaders flagEndHeaders = true := rfl

theorem endHeaders_no_endStream : testFlag flagEndHeaders flagEndStream = false := rfl

theorem testFlag_ended (flags : FrameFlags) : testFlag (flags ||| flagEndHeaders) flagEndHeaders = true := by
  rw [testFlag_or, endHeaders_set, Bool.or_true]

/-- **Stripping the whole.** -/
theorem strip_whole (w : Sending) :
    stripPaddingAndPriority true (w.flags ||| flagEndHeaders) (w.payload ++ w.pieces.flatten) = some w.stripped := by
  have hpad : testFlag (w.flags ||| flagEndHeaders) flagPadded = testFlag w.flags flagPadded := by
    rw [testFlag_or, show testFlag flagEndHeaders flagPadded = false from rfl, Bool.or_false]
  have hprio : testFlag (w.flags ||| flagEndHeaders) flagPriority = testFlag w.flags flagPriority := by
    rw [testFlag_or, show testFlag flagEndHeaders flagPriority = false from rfl, Bool.or_false]
  have hstrip : stripPadding (w.flags ||| flagEndHeaders) (w.payload ++ w.pieces.flatten) =
      some (w.priority ++ w.stripped) := by
    unfold stripPadding Sending.payload
    rw [hpad]
    cases hp : testFlag w.flags flagPadded with
    | false =>
      simp [Sending.stripped, w.unpadded hp]
    | true =>
      have hlen : (UInt8.ofNat w.pad.length).toNat = w.pad.length :=
        UInt8.toNat_ofNat_of_lt' (Nat.lt_succ_of_le w.pad_le)
      simp only [if_true, List.cons_append, List.nil_append, List.append_assoc, hlen]
      rw [if_neg (by simp; omega), Sending.stripped]
      have htotal : (UInt8.ofNat w.pad.length :: (w.priority ++ (w.first ++ (w.pad ++ w.pieces.flatten)))).length -
          w.pad.length - 1 = w.priority.length + (w.first.length + w.pieces.flatten.length) := by
        simp only [List.length_cons, List.length_append]
        omega
      rw [htotal, List.take_length_add_append, List.take_length_add_append]
  have hfive : testFlag w.flags flagPriority = true → stripPriority (w.priority ++ w.stripped) = some w.stripped := by
    intro h
    have hlen : w.priority.length = 5 := by rw [w.priority_length, if_pos h]
    rw [stripPriority, if_pos (by rw [List.length_append]; omega), ← hlen, List.drop_left]
  unfold stripPaddingAndPriority
  rw [hstrip]
  simp only [Bool.true_and, hprio]
  cases h : testFlag w.flags flagPriority with
  | true => exact hfive h
  | false =>
    have hnil : w.priority = [] := List.eq_nil_of_length_eq_zero (by rw [w.priority_length, h]; rfl)
    rw [hnil]
    rfl

/-! ## A block, received -/

theorem contFrames_cons (sid : StreamId) (bs : ByteString) {more : List ByteString} (h : more ≠ []) :
    contFrames sid (bs :: more) =
      ⟨⟨UInt32.ofNat bs.length, .frameContinuation, 0, sid⟩, bs⟩ :: contFrames sid more := by
  cases more with
  | nil => exact absurd rfl h
  | cons bs' more => rfl

theorem handleHeaders_whole (r : Receiver) (cfg : Settings) (hdr : FrameHeader) (body : ByteString)
    (h : testFlag hdr.fhFlags flagEndHeaders = true) :
    (r.handleHeaders cfg hdr body).handed =
      r.handed ++ (handedBlock r.conn hdr.fhStreamId hdr.fhFlags body).toList := by
  unfold Receiver.handleHeaders
  by_cases h0 : hdr.fhStreamId = 0
  · rw [if_pos h0, handedBlock, readsBlock, if_pos h0]
    simp
  · rw [if_neg h0, if_neg (by rw [h]; decide)]

/-- The CONTINUATION frames of a block under way. -/
theorem run_contFrames (cfg : Settings) : ∀ (pieces : List ByteString) (r : Receiver) (c : Continuation),
    pieces ≠ [] → r.conn.connClosed = false → r.contRef = some c →
    (r.run cfg (contFrames c.contStreamId pieces)).handed = r.handed ++
      (handedBlock r.conn c.contStreamId (c.contInitialFlags ||| flagEndHeaders)
        (c.contBuffer ++ pieces.flatten)).toList
  | [], _, _, h, _, _ => absurd rfl h
  | [bs], r, c, _, ho, hc => by
    show (r.receive cfg _).handed = _
    rw [Receiver.receive, ho, hc]
    simp only [Bool.false_eq_true, if_false, ne_eq, not_true, or_self, Receiver.handleFrame,
      Receiver.handleContinuation, hc, endHeaders_set, if_true]
    rw [handleHeaders_whole _ _ _ _ (testFlag_ended _), List.flatten_singleton]
  | bs :: bs' :: more, r, c, _, ho, hc => by
    have hstep : r.receive cfg ⟨⟨UInt32.ofNat bs.length, .frameContinuation, 0, c.contStreamId⟩, bs⟩ =
        { r with contRef := some { c with contBuffer := c.contBuffer ++ bs } } := by
      rw [Receiver.receive, ho, hc]
      simp only [Bool.false_eq_true, if_false, ne_eq, not_true, or_self, Receiver.handleFrame,
        Receiver.handleContinuation, hc, testFlag_zero]
    rw [contFrames_cons _ _ (List.cons_ne_nil _ _), Receiver.run, List.foldl_cons, hstep]
    have ih := run_contFrames cfg (bs' :: more)
      { r with contRef := some { c with contBuffer := c.contBuffer ++ bs } } _ (List.cons_ne_nil _ _) ho rfl
    rw [List.append_assoc] at ih
    exact ih

/-- **What the decoder is handed.** -/
theorem run_frames (conn : Connection) (cfg : Settings) (w : Sending) (ho : conn.connClosed = false)
    (hr : readsBlock conn w.sid (w.flags ||| flagEndHeaders) (w.payload ++ w.pieces.flatten) = true) :
    ((Receiver.start conn).run cfg w.frames).handed = [w.stripped] := by
  have hblock : handedBlock conn w.sid (w.flags ||| flagEndHeaders) (w.payload ++ w.pieces.flatten) =
      some w.stripped := by rw [handedBlock, hr, if_pos rfl, strip_whole]
  have h0 : w.sid ≠ 0 := by
    intro h0
    rw [readsBlock, if_pos h0] at hr
    cases hr
  by_cases hp : w.pieces = []
  · rw [Sending.frames, hp]
    rw [hp] at hblock
    show ((Receiver.start conn).receive cfg _).handed = _
    rw [Receiver.receive, show (Receiver.start conn).conn.connClosed = false from ho]
    show ((Receiver.start conn).handleHeaders cfg _ _).handed = _
    rw [if_pos rfl, handleHeaders_whole _ _ _ _ (testFlag_ended _)]
    rw [List.flatten_nil, List.append_nil] at hblock
    show [] ++ (handedBlock conn w.sid _ w.payload).toList = _
    rw [hblock]
    rfl
  · rw [Sending.frames_of_pieces hp, Receiver.run, List.foldl_cons]
    have hstep : (Receiver.start conn).receive cfg
        ⟨⟨UInt32.ofNat w.payload.length, .frameHeaders, w.flags, w.sid⟩, w.payload⟩ =
          ⟨conn, some ⟨w.sid, w.flags, w.payload⟩, []⟩ := by
      rw [Receiver.receive, show (Receiver.start conn).conn.connClosed = false from ho]
      show (Receiver.start conn).handleHeaders cfg _ _ = _
      rw [Receiver.handleHeaders, if_neg h0, if_pos w.open_flags]
      rfl
    rw [hstep]
    have hrun := run_contFrames cfg w.pieces ⟨conn, some ⟨w.sid, w.flags, w.payload⟩, []⟩ _ hp ho rfl
    rw [hblock] at hrun
    exact hrun

/-! ## Splitting a block -/

/-- A limit of the frame size; the settings allow nothing below 2 ^ 14. -/
abbrev FrameSize := { n : Nat // 0 < n }

def headerBlockFrames.contFrames (sid : StreamId) (maxFrame : FrameSize) (bs : ByteString) : List Frame :=
  if bs.length ≤ maxFrame then
    [⟨⟨UInt32.ofNat bs.length, .frameContinuation, flagEndHeaders, sid⟩, bs⟩]
  else
    ⟨⟨UInt32.ofNat maxFrame, .frameContinuation, 0, sid⟩, bs.take maxFrame⟩ ::
      headerBlockFrames.contFrames sid maxFrame (bs.drop maxFrame)
termination_by bs.length
decreasing_by
  have := maxFrame.2
  rw [List.length_drop]
  omega

def headerBlockFrames (sid : StreamId) (endStream : Bool) (extraFlags : FrameFlags) (block : ByteString)
    (maxFrame : FrameSize) : List Frame :=
  let endStreamFlag := if endStream then flagEndStream else 0
  if block.length ≤ maxFrame then
    [⟨⟨UInt32.ofNat block.length, .frameHeaders, flagEndHeaders ||| extraFlags ||| endStreamFlag, sid⟩, block⟩]
  else
    ⟨⟨UInt32.ofNat (block.take maxFrame).length, .frameHeaders, extraFlags ||| endStreamFlag, sid⟩,
        block.take maxFrame⟩ ::
      headerBlockFrames.contFrames sid maxFrame (block.drop maxFrame)

/-- The flags that callers may add: none that says how the payload is laid out. -/
structure PlainFlags (flags : FrameFlags) : Prop where
  no_end : testFlag flags flagEndHeaders = false
  no_pad : testFlag flags flagPadded = false
  no_priority : testFlag flags flagPriority = false

theorem PlainFlags.endStream {flags : FrameFlags} (h : PlainFlags flags) (endStream : Bool) :
    PlainFlags (flags ||| if endStream then flagEndStream else 0) := by
  cases endStream <;> constructor <;> rw [testFlag_or]
  · rw [h.no_end]; rfl
  · rw [h.no_pad]; rfl
  · rw [h.no_priority]; rfl
  · rw [h.no_end]; rfl
  · rw [h.no_pad]; rfl
  · rw [h.no_priority]; rfl

/-- A block in pieces, without padding and priority. -/
def plainSending (sid : StreamId) (flags : FrameFlags) (h : PlainFlags flags) (first : ByteString)
    (pieces : List ByteString) : Sending where
  sid := sid
  flags := flags
  pad := []
  priority := []
  first := first
  pieces := pieces
  open_flags := h.no_end
  pad_le := Nat.zero_le _
  unpadded := fun _ => rfl
  priority_length := by rw [h.no_priority]; rfl

theorem plainSending_payload (sid : StreamId) {flags : FrameFlags} (h : PlainFlags flags) (first : ByteString)
    (pieces : List ByteString) : (plainSending sid flags h first pieces).payload = first := by
  show (if testFlag flags flagPadded then _ else _) ++ ([] ++ (first ++ [])) = first
  rw [h.no_pad]
  simp

theorem plainSending_stripped (sid : StreamId) {flags : FrameFlags} (h : PlainFlags flags) (first : ByteString)
    (pieces : List ByteString) : (plainSending sid flags h first pieces).stripped = first ++ pieces.flatten := by
  show first ++ ([] ++ pieces.flatten).take pieces.flatten.length = _
  rw [List.nil_append, List.take_length]

/-- The pieces that CONTINUATION frames carry. -/
def cut (maxFrame : FrameSize) (bs : ByteString) : List ByteString :=
  if bs.length ≤ maxFrame then [bs] else bs.take maxFrame :: cut maxFrame (bs.drop maxFrame)
termination_by bs.length
decreasing_by
  have := maxFrame.2
  rw [List.length_drop]
  omega

theorem cut_ne_nil (maxFrame : FrameSize) (bs : ByteString) : cut maxFrame bs ≠ [] := by
  rw [cut]
  split
  · exact List.cons_ne_nil _ _
  · exact List.cons_ne_nil _ _

theorem flatten_cut (maxFrame : FrameSize) (bs : ByteString) : (cut maxFrame bs).flatten = bs := by
  fun_induction cut maxFrame bs with
  | case1 bs h => exact List.flatten_singleton
  | case2 bs h ih => rw [List.flatten_cons, ih, List.take_append_drop]

theorem length_cut (maxFrame : FrameSize) (bs : ByteString) : ∀ p ∈ cut maxFrame bs, p.length ≤ maxFrame := by
  fun_induction cut maxFrame bs with
  | case1 bs h =>
    intro p hp
    rwa [List.mem_singleton.1 hp]
  | case2 bs h ih =>
    intro p hp
    rcases List.mem_cons.1 hp with rfl | hp
    · exact List.length_take_le _ _
    · exact ih p hp

theorem contFrames_cut (sid : StreamId) (maxFrame : FrameSize) (bs : ByteString) :
    headerBlockFrames.contFrames sid maxFrame bs = contFrames sid (cut maxFrame bs) := by
  fun_induction cut maxFrame bs with
  | case1 bs h => rw [headerBlockFrames.contFrames, if_pos h, contFrames]
  | case2 bs h ih =>
    rw [headerBlockFrames.contFrames, if_neg h, contFrames_cons _ _ (cut_ne_nil _ _), ih, List.length_take,
      Nat.min_eq_left (by omega)]

/-- Splitting a block sends it in pieces. -/
theorem headerBlockFrames_eq (sid : StreamId) (endStream : Bool) {extraFlags : FrameFlags}
    (h : PlainFlags extraFlags) (block : ByteString) (maxFrame : FrameSize) :
    ∃ first pieces, block = first ++ pieces.flatten ∧ first.length ≤ maxFrame.1 ∧
      (∀ p ∈ pieces, p.length ≤ maxFrame.1) ∧
      headerBlockFrames sid endStream extraFlags block maxFrame =
        (plainSending sid _ (h.endStream endStream) first pieces).frames := by
  unfold headerBlockFrames
  by_cases hle : block.length ≤ maxFrame
  · refine ⟨block, [], by simp, hle, by simp, ?_⟩
    rw [if_pos hle, Sending.frames, plainSending_payload, UInt8.or_assoc, UInt8.or_comm]
    rfl
  · refine ⟨block.take maxFrame, cut maxFrame (block.drop maxFrame), ?_, List.length_take_le _ _, length_cut _ _, ?_⟩
    · rw [flatten_cut, List.take_append_drop]
    · rw [if_neg hle, Sending.frames_of_pieces (cut_ne_nil maxFrame (block.drop maxFrame)), plainSending_payload,
        contFrames_cut]
      rfl

/-- Only the last of the CONTINUATION frames has END_HEADERS, and none END_STREAM. -/
theorem contFrames_flags (sid : StreamId) : ∀ pieces : List ByteString, pieces ≠ [] →
    (∃ init last, contFrames sid pieces = init ++ [last] ∧
      (∀ f ∈ init, testFlag f.hdr.fhFlags flagEndHeaders = false) ∧
      testFlag last.hdr.fhFlags flagEndHeaders = true) ∧
    ∀ f ∈ contFrames sid pieces, f.hdr.fhType = .frameContinuation ∧ f.body ∈ pieces ∧
      testFlag f.hdr.fhFlags flagEndStream = false
  | [], h => absurd rfl h
  | [bs], _ => by
    refine ⟨⟨[], _, rfl, by simp, endHeaders_set⟩, ?_⟩
    intro f hf
    obtain rfl := List.mem_singleton.1 hf
    exact ⟨rfl, List.mem_singleton.2 rfl, endHeaders_no_endStream⟩
  | bs :: bs' :: more, _ => by
    obtain ⟨⟨init, last, heq, hinit, hlast⟩, hall⟩ := contFrames_flags sid (bs' :: more) (List.cons_ne_nil _ _)
    rw [contFrames_cons _ _ (List.cons_ne_nil _ _)]
    constructor
    · refine ⟨_ :: init, last, by rw [heq]; rfl, ?_, hlast⟩
      intro f hf
      rcases List.mem_cons.1 hf with rfl | hf
      · exact testFlag_zero flagEndHeaders
      · exact hinit f hf
    · intro f hf
      rcases List.mem_cons.1 hf with rfl | hf
      · exact ⟨rfl, List.mem_cons_self, testFlag_zero flagEndStream⟩
      · obtain ⟨ht, hb, hs⟩ := hall f hf
        exact ⟨ht, List.mem_cons_of_mem _ hb, hs⟩

/-- What a splitting of a block into frames must do. -/
structure Splits (sid : StreamId) (endStream : Bool) (extraFlags : FrameFlags) (block : ByteString)
    (maxFrame : FrameSize) (fs : List Frame) : Prop where
  length_le : ∀ f ∈ fs, f.body.length ≤ maxFrame.1
  end_headers : ∃ init last, fs = init ++ [last] ∧
    (∀ f ∈ init, testFlag f.hdr.fhFlags flagEndHeaders = false) ∧ testFlag last.hdr.fhFlags flagEndHeaders = true
  end_stream : ∃ f rest, fs = f :: rest ∧ f.hdr.fhType = .frameHeaders ∧
    testFlag f.hdr.fhFlags flagEndStream = (testFlag extraFlags flagEndStream || endStream) ∧
    ∀ f' ∈ rest, f'.hdr.fhType = .frameContinuation ∧ testFlag f'.hdr.fhFlags flagEndStream = false
  read_back : ∀ (conn : Connection) (cfg : Settings), conn.connClosed = false →
    readsBlock conn sid (extraFlags ||| (if endStream then flagEndStream else 0) ||| flagEndHeaders) block = true →
    ((Receiver.start conn).run cfg fs).handed = [block]

theorem testFlag_endStream (extraFlags : FrameFlags) (endStream : Bool) :
    testFlag (extraFlags ||| if endStream then flagEndStream else 0) flagEndStream =
      (testFlag extraFlags flagEndStream || endStream) := by
  rw [testFlag_or]
  cases endStream <;> rfl

theorem headerBlockFrames_splits (sid : StreamId) (endStream : Bool) {extraFlags : FrameFlags}
    (h : PlainFlags extraFlags) (block : ByteString) (maxFrame : FrameSize) :
    Splits sid endStream extraFlags block maxFrame (headerBlockFrames sid endStream extraFlags block maxFrame) := by
  obtain ⟨first, pieces, rfl, hfirst, hpieces, heq⟩ := headerBlockFrames_eq sid endStream h block maxFrame
  rw [heq]
  have hframes := plainSending_payload sid (h.endStream endStream) first pieces
  constructor
  · intro f hf
    rcases List.mem_cons.1 hf with rfl | hf
    · show (Sending.payload _).length ≤ _
      rwa [hframes]
    · by_cases hp : pieces = []
      · subst hp
        cases hf
      · exact hpieces _ ((contFrames_flags sid pieces hp).2 f hf).2.1
  · by_cases hp : pieces = []
    · subst hp
      exact ⟨[], _, rfl, by simp, testFlag_ended _⟩
    · obtain ⟨init, last, hcont, hinit, hlast⟩ := (contFrames_flags sid pieces hp).1
      have hfs : (plainSending sid _ (h.endStream endStream) first pieces).frames = _ :: contFrames sid pieces := rfl
      rw [hfs, hcont]
      refine ⟨_ :: init, last, rfl, ?_, hlast⟩
      · intro f hf
        rcases List.mem_cons.1 hf with rfl | hf
        · show testFlag (if pieces = [] then _ else _) flagEndHeaders = false
          rw [if_neg hp]
          exact (h.endStream endStream).no_end
        · exact hinit f hf
  · refine ⟨_, _, rfl, rfl, ?_, ?_⟩
    · show testFlag (if pieces = [] then _ else _) flagEndStream = _
      split
      · rw [testFlag_or, endHeaders_no_endStream, Bool.or_false]
        exact testFlag_endStream extraFlags endStream
      · exact testFlag_endStream extraFlags endStream
    · intro f hf
      change f ∈ contFrames sid pieces at hf
      by_cases hp : pieces = []
      · subst hp
        cases hf
      · obtain ⟨ht, -, hs⟩ := (contFrames_flags sid pieces hp).2 f hf
        exact ⟨ht, hs⟩
  · intro conn cfg ho hr
    have hrun := run_frames conn cfg (plainSending sid _ (h.endStream endStream) first pieces) ho
      (by rw [hframes]; exact hr)
    rwa [plainSending_stripped] at hrun

/-! ## Exactness -/

/-- **The decoder is handed the header block** if and only if the octets of the
    CONTINUATION frames repeat the padding of the HEADERS frame; and what the
    connection itself splits is read back. -/
theorem header_block_iff {conn : Connection} (cfg : Settings) (w : Sending) (ho : conn.connClosed = false)
    (hr : readsBlock conn w.sid (w.flags ||| flagEndHeaders) (w.payload ++ w.pieces.flatten) = true) :
    (((Receiver.start conn).run cfg w.frames).handed = [w.block] ↔ w.RepeatsPadding) ∧
      ∀ (sid : StreamId) (endStream : Bool) (extraFlags : FrameFlags) (block : ByteString) (maxFrame : FrameSize),
        PlainFlags extraFlags →
        Splits sid endStream extraFlags block maxFrame (headerBlockFrames sid endStream extraFlags block maxFrame) := by
  refine ⟨?_, fun sid endStream extraFlags block maxFrame h => headerBlockFrames_splits sid endStream h block maxFrame⟩
  rw [run_frames conn cfg w ho hr, ← w.stripped_eq_block_iff, List.cons.injEq, and_iff_left rfl]

/-- `:method: GET` and `:scheme: http`, the second in a CONTINUATION frame behind
    one octet of padding. -/
def paddedSending : Sending where
  sid := 1
  flags := flagPadded
  pad := [0]
  priority := []
  first := [0x82]
  pieces := [[0x86]]
  open_flags := rfl
  pad_le := by decide
  unpadded := by decide
  priority_length := rfl

theorem header_block_iff_padded :
    ((Receiver.start Connection.init).run defaultSettings paddedSending.frames).handed = [paddedSending.block] ↔
      paddedSending.RepeatsPadding :=
  (header_block_iff defaultSettings paddedSending rfl (by decide)).1

/-- The octet of padding comes before the end of the block, which is lost. -/
theorem padded_block_lost :
    ((Receiver.start Connection.init).run defaultSettings paddedSending.frames).handed = [[0x82, 0x00]] ∧
      paddedSending.block = [0x82, 0x86] :=
  ⟨run_frames Connection.init defaultSettings paddedSending rfl (by decide), rfl⟩

end Wireform.Http2.HeaderBlocks
