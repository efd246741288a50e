/-
  The HTTP/2 server (`Network.HTTP2.Server`): one connection, its receive loop and
  the handler threads of its streams.

  The state has the references the threads share.  Events are what a thread does
  in one go: the receive loop takes a frame, or goes on with it; a handler reads a
  chunk of its request body, sends a DATA frame, or is done.  The two frames whose
  handling writes to the stream map what it read from it before, DATA and
  trailers, are handled in two steps, and a handler may come in between.

  Chunks wait in a list: the bound of the queue only makes the receive loop wait.
-/
import Mathlib.Logic.Function.Basic
import Wireform.AssocMap
import Wireform.Transition
import Wireform.Http2.FlowControl
import Wireform.Http2.Hpack.Decode
import Wireform.Http2.Server.Request

namespace Wireform.Http2.Server

open Hpack

inductive ServerStreamState where
  | stOpen
  | stHalfClosedRemote
  | stClosedSrv
  deriving DecidableEq, Repr

structure StreamRec where
  srState : ServerStreamState
  srExpectedLength : Option Int
  srReceivedBytes : Int
  deriving DecidableEq, Repr

inductive BodyChunkItem where
  | bytes (bs : ByteString)
  | endOfBody
  deriving DecidableEq, Repr

inductive ErrorCode where
  | protocolError
  | flowControlError
  | streamClosed
  | refusedStream
  | compressionError
  | enhanceYourCalm
  deriving DecidableEq, Repr

/-- What the server sends, as far as it matters here. -/
inductive Out where
  | data (sid : StreamId) (endStream : Bool) (length : Nat)
  | windowUpdate (sid : StreamId) (increment : Nat)
  | rstStream (sid : StreamId) (code : ErrorCode)
  | goAway (code : ErrorCode)
  | settingsAck
  deriving DecidableEq, Repr

/-- The receive loop between frames, or in the middle of a DATA frame (with the
    record it read) or of trailers. -/
inductive Loop where
  | ready
  | data (sid : StreamId) (sr : StreamRec) (payload : ByteString) (endStream : Bool)
  | trailers (sid : StreamId)
  deriving DecidableEq, Repr

structure Connection where
  connRemoteSettings : Settings
  connHpackDecoder : DynamicTable
  connSendWindow : Int32
  connRecvUnacked : Int
  connRecvWindow : Int
  lastPeerStream : StreamId
  streams : AssocMap StreamId StreamRec
  bodyQueue : StreamId → List BodyChunkItem
  sendWindow : StreamId → Int32
  recvUnacked : StreamId → Int
  recvWindow : StreamId → Int
  handlers : List StreamId
  loop : Loop
  connClosed : Bool
  sent : List Out

/-- A connection whose preface was exchanged. -/
def Connection.init : Connection where
  connRemoteSettings := defaultSettings
  connHpackDecoder := newDynamicTable 4096
  connSendWindow := 65535
  connRecvUnacked := 0
  connRecvWindow := 65535
  lastPeerStream := 0
  streams := []
  bodyQueue := fun _ => []
  sendWindow := fun _ => 0
  recvUnacked := fun _ => 0
  recvWindow := fun _ => 0
  handlers := []
  loop := .ready
  connClosed := false
  sent := []

def recvWindowAckThreshold : Int := 32768

namespace Connection

/-! ## Common actions -/

def send (s : Connection) (o : Out) : Connection := { s with sent := s.sent ++ [o] }

def closeConnection (s : Connection) (code : ErrorCode) : Connection :=
  { s.send (.goAway code) with connClosed := true }

/-- `Map.adjust (\sr -> sr { srState = st }) sid`. -/
def setState (s : Connection) (sid : StreamId) (st : ServerStreamState) : Connection :=
  { s with streams := AssocMap.adjust (fun sr => { sr with srState := st }) sid s.streams }

def pushBody (s : Connection) (sid : StreamId) (item : BodyChunkItem) : Connection :=
  { s with bodyQueue := Function.update s.bodyQueue sid (s.bodyQueue sid ++ [item]) }

/-- The increment in a WINDOW_UPDATE frame has 31 bits. -/
def windowUpdateFrame (sid : StreamId) (n : Int) : Out := .windowUpdate sid (n.toNat % 2 ^ 32 % 2 ^ 31)

/-- A counter of consumed bytes, and what is acknowledged of it. -/
def ack (unacked n : Int) : Int × Int :=
  if unacked + n ≥ recvWindowAckThreshold then (0, unacked + n) else (unacked + n, 0)

def ackConnRecv (s : Connection) (n : Int) : Connection :=
  let r := ack s.connRecvUnacked n
  let s := { s with connRecvUnacked := r.1 }
  if r.2 > 0 then
    { s with connRecvWindow := s.connRecvWindow + r.2 }.send (windowUpdateFrame 0 r.2)
  else s

def ackStreamRecv (s : Connection) (sid : StreamId) (n : Int) : Connection :=
  let r := ack (s.recvUnacked sid) n
  let s := { s with recvUnacked := Function.update s.recvUnacked sid r.1 }
  if r.2 > 0 then
    { s with recvWindow := Function.update s.recvWindow sid (s.recvWindow sid + r.2) }.send
      (windowUpdateFrame sid r.2)
  else s

/-- `freshStream`, put into the map. -/
def insertFresh (s : Connection) (cfg : Settings) (sid : StreamId) (expected : Option Int)
    (st : ServerStreamState) : Connection :=
  { s with
    streams := AssocMap.insert sid ⟨st, expected, 0⟩ s.streams
    bodyQueue := Function.update s.bodyQueue sid []
    sendWindow := Function.update s.sendWindow sid s.connRemoteSettings.settingsInitialWindowSize.toInt32
    recvUnacked := Function.update s.recvUnacked sid 0
    recvWindow := Function.update s.recvWindow sid cfg.settingsInitialWindowSize.toNat }

/-! ## Frames -/

/-- A declared content length that is not what was received. -/
def lengthMismatch (expected : Option Int) (received : Int) : Bool :=
  match expected with
  | some n => n ≠ received
  | none => false

/-- The windows of all streams of the map move with the initial size. -/
def adjustServerStreamWindows (s : Connection) (oldInit newInit : UInt32) : Connection :=
  if oldInit = newInit then s
  else { s with sendWindow := fun sid =>
    match AssocMap.lookup sid s.streams with
    | none => s.sendWindow sid
    | some _ =>
      match updateInitialWindowSize (s.sendWindow sid) oldInit.toInt32 newInit.toInt32 with
      | .ok w => w
      | .error _ => s.sendWindow sid }

def handleSettings (s : Connection) (params : List Param) : Connection :=
  match applySettingsParams s.connRemoteSettings params with
  | .error _ => s.closeConnection .protocolError
  | .ok newSettings =>
    ({ s with connRemoteSettings := newSettings }.adjustServerStreamWindows
      s.connRemoteSettings.settingsInitialWindowSize newSettings.settingsInitialWindowSize).send .settingsAck

def handleWindowUpdate (s : Connection) (sid : StreamId) (increment : UInt32) : Connection :=
  let inc := increment &&& 0x7FFFFFFF
  if inc = 0 then
    if sid = 0 then s.closeConnection .protocolError else s.send (.rstStream sid .protocolError)
  else if sid = 0 then
    match releaseWindow s.connSendWindow inc.toInt32 with
    | .error _ => s.closeConnection .flowControlError
    | .ok w => { s with connSendWindow := w }
  else
    match AssocMap.lookup sid s.streams with
    | none => if sid % 2 = 1 ∧ sid > s.lastPeerStream then s.closeConnection .protocolError else s
    | some _ =>
      match releaseWindow (s.sendWindow sid) inc.toInt32 with
      | .error _ =>
        ((s.send (.rstStream sid .flowControlError)).pushBody sid .endOfBody).setState sid .stClosedSrv
      | .ok w => { s with sendWindow := Function.update s.sendWindow sid w }

/-- The header list of a block, with the decoder's table after it. -/
def decodeHeaders (s : Connection) (block : ByteString) : Option (List Header) × Connection :=
  match decodeHeaderBlock s.connHpackDecoder block with
  | (.right hs, dt) => (some hs, { s with connHpackDecoder := dt })
  | (_, dt) => (none, { s with connHpackDecoder := dt }.closeConnection .compressionError)

/-- The streams that are not closed. -/
def activeStreams (s : Connection) : AssocMap StreamId StreamRec :=
  s.streams.filter fun e => e.2.srState ≠ .stClosedSrv

def active (s : Connection) : Nat := s.activeStreams.length

/-- The stream counts as seen, and is closed at once. -/
def refuseStream (s : Connection) (cfg : Settings) (sid : StreamId) : Connection :=
  { s.send (.rstStream sid .refusedStream) with lastPeerStream := sid }.insertFresh cfg sid none .stClosedSrv

/-- A new stream with its handler; one that is over and should have had a body is
    closed at once. -/
def admitStream (s : Connection) (cfg : Settings) (sid : StreamId) (endStream : Bool)
    (clHdr : Option Int) : Connection :=
  let s := { s with lastPeerStream := sid }.insertFresh cfg sid clHdr
    (if endStream then .stHalfClosedRemote else .stOpen)
  let s := if endStream then s.pushBody sid .endOfBody else s
  if endStream && lengthMismatch clHdr 0 then
    (s.send (.rstStream sid .protocolError)).insertFresh cfg sid none .stClosedSrv
  else { s with handlers := sid :: s.handlers }

/-- A request whose headers are in order is admitted, or refused if too many
    streams are active. -/
def acceptStream (s : Connection) (cfg : Settings) (sid : StreamId) (flags : FrameFlags)
    (headers : List Header) : Connection :=
  match cfg.settingsMaxConcurrentStreams with
  | some n =>
    if s.active ≥ n.toNat then s.refuseStream cfg sid
    else s.admitStream cfg sid (testFlag flags flagEndStream) (lookupContentLength headers)
  | none => s.admitStream cfg sid (testFlag flags flagEndStream) (lookupContentLength headers)

def handleFreshStream (s : Connection) (cfg : Settings) (sid : StreamId) (flags : FrameFlags)
    (body : ByteString) : Connection :=
  if sid % 2 = 0 ∨ sid ≤ s.lastPeerStream then s.closeConnection .protocolError
  else if headersSelfDependency sid flags body then s.closeConnection .protocolError
  else
    match stripPaddingAndPriority true flags body with
    | none => s.closeConnection .protocolError
    | some block =>
      match s.decodeHeaders block with
      | (none, s) => s
      | (some headers, s) =>
        if overHeaderListLimit cfg headers then s.refuseStream cfg sid
        else
          match validateRequestHeaders headers with
          | some _ => s.closeConnection .protocolError
          | none => s.acceptStream cfg sid flags headers

/-- Trailers of an open stream, up to the first write to the stream map. -/
def handleTrailers (s : Connection) (cfg : Settings) (sid : StreamId) (flags : FrameFlags)
    (body : ByteString) : Connection :=
  if testFlag flags flagEndStream = false then s.closeConnection .protocolError
  else
    match stripPaddingAndPriority true flags body with
    | none => s.closeConnection .protocolError
    | some block =>
      match s.decodeHeaders block with
      | (none, s) => s
      | (some trailers, s) =>
        if overHeaderListLimit cfg trailers then
          (s.send (.rstStream sid .enhanceYourCalm)).setState sid .stClosedSrv
        else if trailers.any fun h => isPseudo h.1 then s.closeConnection .protocolError
        else { s with loop := .trailers sid }

/-- A HEADERS frame with its whole block, CONTINUATION frames included. -/
def handleHeaders (s : Connection) (cfg : Settings) (sid : StreamId) (flags : FrameFlags)
    (body : ByteString) : Connection :=
  if sid = 0 then s.closeConnection .protocolError
  else
    match AssocMap.lookup sid s.streams with
    | some sr =>
      match sr.srState with
      | .stClosedSrv => s.closeConnection .streamClosed
      | .stHalfClosedRemote => s.closeConnection .streamClosed
      | .stOpen => s.handleTrailers cfg sid flags body
    | none => s.handleFreshStream cfg sid flags body

/-- The rest of the trailers: END_STREAM for the handler, and the new state. -/
def finishTrailers (s : Connection) (sid : StreamId) : Connection :=
  let s := { s with loop := .ready }
  match AssocMap.lookup sid s.streams with
  | none => s
  | some sr =>
    let s := s.pushBody sid .endOfBody
    if lengthMismatch sr.srExpectedLength sr.srReceivedBytes then
      (s.send (.rstStream sid .protocolError)).setState sid .stClosedSrv
    else s.setState sid .stHalfClosedRemote

/-- A DATA frame on a stream that the server has closed. -/
def discardData (s : Connection) (sid : StreamId) (flags : FrameFlags) (body : ByteString) : Connection :=
  let s := if body.length > 0 then s.send (windowUpdateFrame 0 body.length) else s
  if testFlag flags flagEndStream then s.pushBody sid .endOfBody else s

/-- A DATA frame on an open stream, up to the first write to the stream map. -/
def receiveData (s : Connection) (sid : StreamId) (sr : StreamRec) (flags : FrameFlags)
    (body payload : ByteString) : Connection :=
  let streamWin := s.recvWindow sid - body.length
  let connWin := s.connRecvWindow - body.length
  let s := { s with recvWindow := Function.update s.recvWindow sid streamWin, connRecvWindow := connWin }
  if streamWin < 0 then (s.send (.rstStream sid .flowControlError)).setState sid .stClosedSrv
  else if connWin < 0 then s.closeConnection .flowControlError
  else { s with loop := .data sid sr payload (testFlag flags flagEndStream) }

def handleData (s : Connection) (sid : StreamId) (flags : FrameFlags) (body : ByteString) : Connection :=
  if sid = 0 then s.closeConnection .protocolError
  else
    match AssocMap.lookup sid s.streams with
    | none => s.closeConnection .streamClosed
    | some sr =>
      match sr.srState with
      | .stHalfClosedRemote => s.closeConnection .streamClosed
      | .stClosedSrv =>
        match stripPaddingAndPriority false flags body with
        | none => s.closeConnection .protocolError
        | some _ => s.discardData sid flags body
      | .stOpen =>
        match stripPaddingAndPriority false flags body with
        | none => s.closeConnection .protocolError
        | some payload => s.receiveData sid sr flags body payload

/-- The rest of a DATA frame: the record read before is written back with the new
    state, and the payload is handed to the request body. -/
def finishData (s : Connection) (sid : StreamId) (sr : StreamRec) (payload : ByteString)
    (endStream : Bool) : Connection :=
  let newReceived := sr.srReceivedBytes + payload.length
  let newState := if endStream then ServerStreamState.stHalfClosedRemote else .stOpen
  let s := { s with
    loop := .ready
    streams := AssocMap.insert sid { sr with srState := newState, srReceivedBytes := newReceived } s.streams }
  let s := if payload = [] then s else s.pushBody sid (.bytes payload)
  let s := if endStream then s.pushBody sid .endOfBody else s
  if endStream && lengthMismatch sr.srExpectedLength newReceived then
    (s.send (.rstStream sid .protocolError)).setState sid .stClosedSrv
  else s

def handleRstStream (s : Connection) (sid : StreamId) : Connection :=
  if sid = 0 then s.closeConnection .protocolError
  else
    match AssocMap.lookup sid s.streams with
    | none => s.closeConnection .protocolError
    | some _ => (s.pushBody sid .endOfBody).setState sid .stClosedSrv

/-! ## Handlers -/

/-- The next chunk of the request body; nothing happens while there is none. -/
def makeRequestBody (s : Connection) (sid : StreamId) : Option Connection :=
  match s.bodyQueue sid with
  | [] => none
  | .bytes bs :: q =>
    some (({ s with bodyQueue := Function.update s.bodyQueue sid q }.ackConnRecv bs.length).ackStreamRecv
      sid bs.length)
  | .endOfBody :: q => some { s with bodyQueue := Function.update s.bodyQueue sid (q ++ [.endOfBody]) }

/-- Send a DATA frame of `n` bytes, once both windows have room for it. -/
def sendDataFrame (s : Connection) (sid : StreamId) (endStream : Bool) (n : Nat) : Option Connection :=
  if n = 0 then some (s.send (.data sid endStream n))
  else
    match consumeWindow s.connSendWindow (Int32.ofNat n), consumeWindow (s.sendWindow sid) (Int32.ofNat n) with
    | some cw, some sw =>
      some ({ s with connSendWindow := cw, sendWindow := Function.update s.sendWindow sid sw }.send
        (.data sid endStream n))
    | _, _ => none

end Connection

/-! ## Events -/

/-- The length of a frame has 24 bits, and a handler's DATA frames are cut to the
    peer's largest frame size, of 24 bits too. -/
abbrev FrameBody := {bs : ByteString // bs.length < 2 ^ 24}

inductive Frame where
  | settings (params : List Param)
  | windowUpdate (sid : StreamId) (increment : UInt32)
  | headers (sid : StreamId) (flags : FrameFlags) (block : ByteString)
  | data (sid : StreamId) (flags : FrameFlags) (body : FrameBody)
  | rstStream (sid : StreamId)

inductive Event where
  /-- The receive loop takes a frame. -/
  | frame (f : Frame)
  /-- It goes on with the frame it is in. -/
  | resume
  /-- A handler asks for a chunk of its request body. -/
  | read (sid : StreamId)
  /-- A handler sends a DATA frame. -/
  | sendData (sid : StreamId) (endStream : Bool) (n : Fin (2 ^ 24))
  /-- A handler is done with its response. -/
  | done (sid : StreamId)
  /-- A handler ends by an exception. -/
  | fail (sid : StreamId)
  /-- A rate limit or the watchdog closes the connection. -/
  | shut

def handleFrame (cfg : Settings) (s : Connection) : Frame → Connection
  | .settings params => s.handleSettings params
  | .windowUpdate sid increment => s.handleWindowUpdate sid increment
  | .headers sid flags block => s.handleHeaders cfg sid flags block
  | .data sid flags body => s.handleData sid flags body
  | .rstStream sid => s.handleRstStream sid

def step (cfg : Settings) (s : Connection) (e : Event) : Option Connection :=
  if s.connClosed then none
  else
    match e with
    | .frame f => if s.loop = .ready then some (handleFrame cfg s f) else none
    | .resume =>
      match s.loop with
      | .ready => none
      | .data sid sr payload endStream => some (s.finishData sid sr payload endStream)
      | .trailers sid => some (s.finishTrailers sid)
    | .read sid => s.makeRequestBody sid
    | .sendData sid endStream n => if sid ∈ s.handlers then s.sendDataFrame sid endStream n else none
    | .done sid =>
      if sid ∈ s.handlers then
        some ({ s with handlers := s.handlers.erase sid }.setState sid .stClosedSrv)
      else none
    | .fail sid => if sid ∈ s.handlers then some { s with handlers := s.handlers.erase sid } else none
    | .shut => some (s.closeConnection .enhanceYourCalm)

end Wireform.Http2.Server
