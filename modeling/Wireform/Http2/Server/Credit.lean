/-
  Receive flow control.

  The bytes of DATA frames that have come in are the credit sent back on stream 0,
  the counter of consumed bytes, and what waits in the queues of the streams that
  are not closed (`Balanced`).

  * `step_balanced`: a step keeps the balance if it is `Credited`: no padding comes
    in on an open stream, and no stream is closed while bytes wait in its queue;
  * `credit_conserved`: so does a run, and once the queues are empty the peer's
    connection window is back, but for less than the threshold;
  * `padding_lost`: padding is never given back.
-/
import Wireform.Http2.Server.Closed

namespace Wireform.Http2.Server

open Hpack Transition

variable {cfg : Settings} {s s' : Connection} {sid : StreamId}

/-! ## The two sides -/

/-- The bytes of a queue. -/
def bodyBytes (q : List BodyChunkItem) : Nat :=
  (q.map fun item => match item with
    | .bytes bs => bs.length
    | .endOfBody => 0).sum

attribute [grind =] bodyBytes

/-- The bytes that a frame counts against the receive windows. -/
def frameBytes : Event → Nat
  | .frame (.data _ _ body) => body.val.length
  | _ => 0

/-- The DATA bytes of a run, padding included. -/
def received (es : List Event) : Nat := (es.map frameBytes).sum

def connCredit : Out → Nat
  | .windowUpdate sid increment => if sid = 0 then increment else 0
  | _ => 0

/-- The credit sent on stream 0. -/
def credited (out : List Out) : Nat := (out.map connCredit).sum

/-- The bytes the receive loop is about to queue. -/
def Loop.bytes : Loop → Nat
  | .data _ _ payload _ => payload.length
  | _ => 0

attribute [grind =] Loop.bytes

namespace Connection

/-- The bytes that wait for the handlers of streams that are not closed. -/
def queued (s : Connection) : Nat := (s.activeStreams.map fun e => bodyBytes (s.bodyQueue e.1)).sum

/-- The bytes that wait on a stream, if it is not closed. -/
def held (s : Connection) (x : StreamId) : Nat :=
  match s.stateOf x with
  | none => 0
  | some .stClosedSrv => 0
  | some _ => bodyBytes (s.bodyQueue x)

attribute [grind =] held

/-- The balance of a connection that received `n` bytes; only streams that are not
    closed have bytes waiting. -/
structure Balanced (s : Connection) (n : Int) : Prop where
  balance : n = credited s.sent + s.connRecvUnacked + s.queued + s.loop.bytes
  unacked : 0 ≤ s.connRecvUnacked ∧ s.connRecvUnacked < recvWindowAckThreshold
  ordered : AssocMap.Ascending s.streams
  drained : ∀ x, s.held x = bodyBytes (s.bodyQueue x)
  chunk : ∀ x bs, BodyChunkItem.bytes bs ∈ s.bodyQueue x → x ≠ 0 ∧ bs.length < 2 ^ 24
  hand : ∀ x sr payload endStream, s.loop = .data x sr payload endStream → x ≠ 0 ∧ payload.length < 2 ^ 24

@[simp] theorem bodyBytes_nil : bodyBytes [] = 0 := rfl

@[simp] theorem bodyBytes_append (q q' : List BodyChunkItem) :
    bodyBytes (q ++ q') = bodyBytes q + bodyBytes q' := by
  simp [bodyBytes]

@[simp] theorem bodyBytes_bytes (bs : ByteString) (q : List BodyChunkItem) :
    bodyBytes (.bytes bs :: q) = bs.length + bodyBytes q := by
  simp [bodyBytes]

@[simp] theorem bodyBytes_endOfBody (q : List BodyChunkItem) : bodyBytes (.endOfBody :: q) = bodyBytes q := by
  simp [bodyBytes]

@[simp] theorem credited_append (out out' : List Out) :
    credited (out ++ out') = credited out + credited out' := by
  simp [credited]

@[simp] theorem credited_single (o : Out) : credited [o] = connCredit o := by
  simp [credited]

/-! ## One stream at a time -/

/-- The weight of a stream in the sum of what is queued. -/
def waiting (s : Connection) (x : StreamId) (sr : StreamRec) : Nat :=
  if sr.srState = .stClosedSrv then 0 else bodyBytes (s.bodyQueue x)

theorem queued_eq_total (s : Connection) : s.queued = AssocMap.total s.waiting s.streams := by
  unfold queued activeStreams AssocMap.total
  induction s.streams with
  | nil => rfl
  | cons e m ih =>
    rw [List.filter_cons, List.map_cons, List.sum_cons, ← ih]
    by_cases h : e.2.srState = ServerStreamState.stClosedSrv
    · simp [waiting, h]
    · simp [waiting, h]

theorem weight_waiting (s : Connection) (x : StreamId) : AssocMap.weight s.waiting s.streams x = s.held x := by
  unfold AssocMap.weight held stateOf
  cases AssocMap.lookup x s.streams with
  | none => rfl
  | some sr =>
    show waiting s x sr = _
    unfold waiting
    cases hst : sr.srState with
    | stOpen => simp [hst]
    | stHalfClosedRemote => simp [hst]
    | stClosedSrv => simp [hst]

/-- What changes at one stream changes the sum by that stream's bytes. -/
theorem queued_change (ho : AssocMap.Ascending s.streams) (ho' : AssocMap.Ascending s'.streams)
    (sid : StreamId) (h : ∀ x, x ≠ sid → s'.held x = s.held x) :
    s'.queued + s.held sid = s.queued + s'.held sid := by
  rw [queued_eq_total, queued_eq_total, ← weight_waiting, ← weight_waiting]
  refine AssocMap.total_change ho ho' sid fun x hx => ?_
  rw [weight_waiting, weight_waiting]
  exact h x hx

theorem held_of_live {st : ServerStreamState} (h : s.stateOf sid = some st) (hst : st ≠ .stClosedSrv) :
    s.held sid = bodyBytes (s.bodyQueue sid) := by
  unfold held
  rw [h]
  cases st with
  | stOpen => rfl
  | stHalfClosedRemote => rfl
  | stClosedSrv => exact absurd rfl hst

theorem held_eq_of (hst : s'.stateOf sid = s.stateOf sid) (hq : s'.bodyQueue sid = s.bodyQueue sid) :
    s'.held sid = s.held sid := by
  unfold held
  rw [hst, hq]

/-! ## What the common actions do to the balance -/

section
variable {n : Int}

/-- Nothing that counts is different. -/
theorem Balanced.of_eq (h : s.Balanced n) (hs : s'.streams = s.streams) (hq : s'.bodyQueue = s.bodyQueue)
    (hu : s'.connRecvUnacked = s.connRecvUnacked) (hl : s'.loop = s.loop) (ho : s'.sent = s.sent) :
    s'.Balanced n where
  balance := by
    rw [ho, hu, queued, activeStreams, hs, hq, hl]
    exact h.balance
  unacked := by
    rw [hu]
    exact h.unacked
  ordered := by
    rw [hs]
    exact h.ordered
  drained x := by
    rw [held_eq_of (s := s) (by rw [stateOf, hs]; rfl) (congrFun hq x), hq]
    exact h.drained x
  chunk x bs hbs := by
    rw [hq] at hbs
    exact h.chunk x bs hbs
  hand := by
    rw [hl]
    exact h.hand

/-- A frame is sent; a WINDOW_UPDATE frame on stream 0 gives credit. -/
theorem Balanced.send (h : s.Balanced n) (o : Out) : (s.send o).Balanced (n + connCredit o) where
  balance := by
    have hsent : (s.send o).sent = s.sent ++ [o] := rfl
    have hq : (s.send o).queued = s.queued := rfl
    have hl : (s.send o).loop = s.loop := rfl
    have hu : (s.send o).connRecvUnacked = s.connRecvUnacked := rfl
    rw [hsent, hq, hl, hu, credited_append, credited_single, h.balance]
    push_cast
    omega
  unacked := h.unacked
  ordered := h.ordered
  drained := h.drained
  chunk := h.chunk
  hand := h.hand

/-- A change of one stream: its state, and its queue. -/
theorem Balanced.stream {t : Connection} (h : s.Balanced n) (sid : StreamId) (hu : t.connRecvUnacked = s.connRecvUnacked)
    (hl : t.loop = s.loop) (ho : t.sent = s.sent) (hordered : AssocMap.Ascending t.streams)
    (hstate : ∀ x, x ≠ sid → t.stateOf x = s.stateOf x)
    (hqueue : ∀ x, x ≠ sid → t.bodyQueue x = s.bodyQueue x)
    (hheld : t.held sid = bodyBytes (t.bodyQueue sid))
    (hchunk : ∀ bs, BodyChunkItem.bytes bs ∈ t.bodyQueue sid → sid ≠ 0 ∧ bs.length < 2 ^ 24) :
    t.Balanced (n + bodyBytes (t.bodyQueue sid) - bodyBytes (s.bodyQueue sid)) where
  balance := by
    have hc := queued_change h.ordered hordered sid fun x hx => held_eq_of (hstate x hx) (hqueue x hx)
    rw [hheld, h.drained sid] at hc
    have hb := h.balance
    rw [ho, hu, hl]
    omega
  unacked := by
    rw [hu]
    exact h.unacked
  ordered := hordered
  drained x := by
    by_cases hx : x = sid
    · rw [hx]
      exact hheld
    · rw [held_eq_of (hstate x hx) (hqueue x hx), hqueue x hx]
      exact h.drained x
  chunk x bs hbs := by
    by_cases hx : x = sid
    · rw [hx] at hbs ⊢
      exact hchunk bs hbs
    · rw [hqueue x hx] at hbs
      exact h.chunk x bs hbs
  hand := by
    rw [hl]
    exact h.hand

/-- A stream is closed with an empty queue, or gets another state. -/
theorem Balanced.setState (h : s.Balanced n) (sid : StreamId) (st : ServerStreamState)
    (hst : st = .stClosedSrv → bodyBytes (s.bodyQueue sid) = 0) : (s.setState sid st).Balanced n := by
  have hstate : ∀ x, (s.setState sid st).stateOf x =
      if x = sid then (s.stateOf sid).map fun _ => st else s.stateOf x := fun x => stateOf_setState s sid st x
  have hheld : (s.setState sid st).held sid = bodyBytes (s.bodyQueue sid) := by
    have hd := h.drained sid
    have hsid := hstate sid
    rw [if_pos rfl] at hsid
    cases ho : s.stateOf sid with
    | none =>
      unfold held at hd ⊢
      rw [ho] at hd hsid
      rw [hsid]
      exact hd
    | some st' =>
      rw [ho] at hsid
      by_cases hclosed : st = ServerStreamState.stClosedSrv
      · unfold held
        rw [hsid, hclosed]
        exact (hst hclosed).symm
      · exact held_of_live hsid hclosed
  have hres := h.stream (t := s.setState sid st) sid rfl rfl rfl (h.ordered.adjust _ sid)
    (fun x hx => by rw [hstate x, if_neg hx]) (fun _ _ => rfl) hheld (h.chunk sid)
  have hz : n + bodyBytes ((s.setState sid st).bodyQueue sid) - bodyBytes (s.bodyQueue sid) = n :=
    Int.add_sub_cancel _ _
  rwa [hz] at hres

/-- The end of a body is queued. -/
theorem Balanced.pushEnd (h : s.Balanced n) (sid : StreamId) : (s.pushBody sid .endOfBody).Balanced n := by
  have hq : (s.pushBody sid .endOfBody).bodyQueue sid = s.bodyQueue sid ++ [BodyChunkItem.endOfBody] :=
    Function.update_self ..
  have hbytes : bodyBytes (s.bodyQueue sid ++ [BodyChunkItem.endOfBody]) = bodyBytes (s.bodyQueue sid) := by simp
  have hheld : (s.pushBody sid .endOfBody).held sid = bodyBytes ((s.pushBody sid .endOfBody).bodyQueue sid) := by
    have hd := h.drained sid
    unfold held at hd ⊢
    rw [stateOf_pushBody, hq, hbytes]
    exact hd
  have hres := h.stream (t := s.pushBody sid .endOfBody) sid rfl rfl rfl h.ordered (fun _ _ => rfl)
    (fun x hx => Function.update_of_ne hx _ _) hheld (by
      intro bs hbs
      rw [hq, List.mem_append, List.mem_singleton] at hbs
      rcases hbs with hbs | hbs
      · exact h.chunk sid bs hbs
      · cases hbs)
  rw [hq, hbytes, Int.add_sub_cancel] at hres
  exact hres

/-- A chunk is queued on a stream that is not closed. -/
theorem Balanced.pushBytes (h : s.Balanced n) {st : ServerStreamState} (hlive : s.stateOf sid = some st)
    (hst : st ≠ .stClosedSrv) (hsid : sid ≠ 0) {bs : ByteString} (hbs : bs.length < 2 ^ 24) :
    (s.pushBody sid (.bytes bs)).Balanced (n + bs.length) := by
  have hq : (s.pushBody sid (.bytes bs)).bodyQueue sid = s.bodyQueue sid ++ [BodyChunkItem.bytes bs] :=
    Function.update_self ..
  have hres := h.stream (t := s.pushBody sid (.bytes bs)) sid rfl rfl rfl h.ordered (fun _ _ => rfl)
    (fun x hx => Function.update_of_ne hx _ _)
    (held_of_live ((stateOf_pushBody s sid _ sid).trans hlive) hst) (by
      intro bs' hbs'
      rw [hq, List.mem_append, List.mem_singleton] at hbs'
      rcases hbs' with hbs' | hbs'
      · exact h.chunk sid bs' hbs'
      · cases hbs'
        exact ⟨hsid, hbs⟩)
  have hbytes : bodyBytes (s.bodyQueue sid ++ [.bytes bs]) = bodyBytes (s.bodyQueue sid) + bs.length := by simp
  rw [hq, hbytes] at hres
  have hz : n + ((bodyBytes (s.bodyQueue sid) + bs.length : Nat) : Int) - bodyBytes (s.bodyQueue sid) =
      n + bs.length := by
    push_cast
    omega
  rwa [hz] at hres

/-- A record of a stream that is not closed is put into the map. -/
theorem Balanced.insertLive (h : s.Balanced n) (sid : StreamId) {r : StreamRec} (hst : r.srState ≠ .stClosedSrv) :
    { s with streams := AssocMap.insert sid r s.streams }.Balanced n := by
  have hstate : ∀ x, { s with streams := AssocMap.insert sid r s.streams }.stateOf x =
      if x = sid then some r.srState else s.stateOf x := by
    intro x
    unfold stateOf
    rw [AssocMap.lookup_insert]
    split
    · rfl
    · rfl
  have hres := h.stream (t := { s with streams := AssocMap.insert sid r s.streams }) sid rfl rfl rfl
    (h.ordered.insert sid r) (fun x hx => by rw [hstate x, if_neg hx]) (fun _ _ => rfl)
    (held_of_live (by rw [hstate sid, if_pos rfl]) hst) (h.chunk sid)
  simpa using hres

/-- A fresh record is put where no bytes wait. -/
theorem Balanced.insertFresh (h : s.Balanced n) (cfg : Settings) (expected : Option Int) (st : ServerStreamState)
    (hempty : bodyBytes (s.bodyQueue sid) = 0) : (s.insertFresh cfg sid expected st).Balanced n := by
  have hstate := stateOf_insertFresh s cfg sid expected st
  have hq : (s.insertFresh cfg sid expected st).bodyQueue sid = [] := Function.update_self ..
  have hheld : (s.insertFresh cfg sid expected st).held sid =
      bodyBytes ((s.insertFresh cfg sid expected st).bodyQueue sid) := by
    unfold held
    rw [hstate, if_pos rfl, hq]
    cases st with
    | stOpen => rfl
    | stHalfClosedRemote => rfl
    | stClosedSrv => rfl
  have hres := h.stream (t := s.insertFresh cfg sid expected st) sid rfl rfl rfl (h.ordered.insert sid _)
    (fun x hx => by rw [hstate x, if_neg hx]) (fun x hx => Function.update_of_ne hx _ _) hheld (by
      intro bs hbs
      rw [hq] at hbs
      cases hbs)
  rw [hq, hempty] at hres
  simpa using hres

/-- The receive loop goes on. -/
theorem Balanced.setLoop (h : s.Balanced n) (loop : Loop)
    (hand : ∀ x sr payload endStream, loop = .data x sr payload endStream → x ≠ 0 ∧ payload.length < 2 ^ 24) :
    { s with loop := loop }.Balanced (n + loop.bytes - s.loop.bytes) where
  balance := by
    have hb := h.balance
    have hq : { s with loop := loop }.queued = s.queued := rfl
    rw [hq]
    show _ = (credited s.sent : Int) + s.connRecvUnacked + s.queued + loop.bytes
    omega
  unacked := h.unacked
  ordered := h.ordered
  drained := h.drained
  chunk := h.chunk
  hand := hand

/-- The queue of a stream is taken from. -/
theorem Balanced.pop (h : s.Balanced n) {item : BodyChunkItem} {q : List BodyChunkItem}
    (hq : s.bodyQueue sid = item :: q) {r : List BodyChunkItem} (hbytes : bodyBytes r = bodyBytes q)
    (hchunk : ∀ bs, BodyChunkItem.bytes bs ∈ r → BodyChunkItem.bytes bs ∈ q) :
    { s with bodyQueue := Function.update s.bodyQueue sid r }.Balanced (n - bodyBytes [item]) := by
  have hself : Function.update s.bodyQueue sid r sid = r := Function.update_self ..
  have hcons : bodyBytes (item :: q) = bodyBytes [item] + bodyBytes q := by
    rw [← bodyBytes_append]
    rfl
  have hheld : { s with bodyQueue := Function.update s.bodyQueue sid r }.held sid =
      bodyBytes (Function.update s.bodyQueue sid r sid) := by
    have hd := h.drained sid
    rw [hq, hcons] at hd
    rw [hself, hbytes]
    unfold held at hd ⊢
    show (match s.stateOf sid with
      | none => 0
      | some ServerStreamState.stClosedSrv => 0
      | some _ => bodyBytes (Function.update s.bodyQueue sid r sid)) = _
    rw [hself, hbytes]
    split at hd
    · omega
    · omega
    · rfl
  have hres := h.stream (t := { s with bodyQueue := Function.update s.bodyQueue sid r }) sid rfl rfl rfl
    h.ordered (fun _ _ => rfl) (fun x hx => Function.update_of_ne hx _ _) hheld (by
      intro bs hbs
      change BodyChunkItem.bytes bs ∈ Function.update s.bodyQueue sid r sid at hbs
      rw [hself] at hbs
      refine h.chunk sid bs ?_
      rw [hq]
      exact List.mem_cons_of_mem _ (hchunk bs hbs))
  have hz : n + bodyBytes (Function.update s.bodyQueue sid r sid) - bodyBytes (s.bodyQueue sid) =
      n - bodyBytes [item] := by
    rw [hself, hbytes, hq, hcons]
    push_cast
    omega
  rwa [hz] at hres

/-- The increment of a WINDOW_UPDATE frame for less than `2 ^ 31` bytes. -/
theorem windowUpdateFrame_small (sid : StreamId) {k : Int} (h0 : 0 ≤ k) (h1 : k < 2 ^ 31) :
    windowUpdateFrame sid k = .windowUpdate sid k.toNat := by
  unfold windowUpdateFrame
  rw [Nat.mod_eq_of_lt (show k.toNat < 2 ^ 32 by omega), Nat.mod_eq_of_lt (show k.toNat < 2 ^ 31 by omega)]

/-- The bytes of a chunk that was read are counted, or given back. -/
theorem Balanced.ackConnRecv (h : s.Balanced n) {k : Int} (h0 : 0 ≤ k) (h1 : k < 2 ^ 24) :
    (s.ackConnRecv k).Balanced (n + k) := by
  obtain ⟨hu0, hu1⟩ := h.unacked
  have hunacked : ∀ u : Int, 0 ≤ u → u < recvWindowAckThreshold →
      { s with connRecvUnacked := u }.Balanced (n + u - s.connRecvUnacked) := by
    intro u hlo hhi
    refine ⟨?_, ⟨hlo, hhi⟩, h.ordered, h.drained, h.chunk, h.hand⟩
    have hb := h.balance
    have hq : { s with connRecvUnacked := u }.queued = s.queued := rfl
    rw [hq]
    show _ = (credited s.sent : Int) + u + s.queued + s.loop.bytes
    omega
  have hthreshold : recvWindowAckThreshold = 32768 := rfl
  unfold Connection.ackConnRecv ack
  by_cases hge : s.connRecvUnacked + k ≥ recvWindowAckThreshold
  · have hpos : s.connRecvUnacked + k > 0 := by omega
    simp only [hge, if_true, hpos]
    rw [windowUpdateFrame_small 0 (by omega) (by omega)]
    have hzero := hunacked 0 (Int.le_refl 0) (by decide)
    have hwin : { s with
        connRecvUnacked := 0
        connRecvWindow := s.connRecvWindow + (s.connRecvUnacked + k) }.Balanced (n + 0 - s.connRecvUnacked) :=
      hzero.of_eq rfl rfl rfl rfl rfl
    have hsend := hwin.send (.windowUpdate 0 (s.connRecvUnacked + k).toNat)
    have hcredit : (connCredit (.windowUpdate 0 (s.connRecvUnacked + k).toNat) : Int) = s.connRecvUnacked + k := by
      show (((s.connRecvUnacked + k).toNat : Nat) : Int) = _
      omega
    have hz : n + 0 - s.connRecvUnacked + connCredit (.windowUpdate 0 (s.connRecvUnacked + k).toNat) = n + k := by
      omega
    rwa [hz] at hsend
  · simp only [hge, if_false, gt_iff_lt, Int.lt_irrefl]
    have hres := hunacked (s.connRecvUnacked + k) (by omega) (by omega)
    have hz : n + (s.connRecvUnacked + k) - s.connRecvUnacked = n + k := by omega
    rwa [hz] at hres

/-- The windows of streams do not count. -/
theorem Balanced.ackStreamRecv (h : s.Balanced n) (hsid : sid ≠ 0) (k : Int) :
    (s.ackStreamRecv sid k).Balanced n := by
  have hcredit : ∀ k, connCredit (windowUpdateFrame sid k) = 0 := fun k => if_neg hsid
  unfold Connection.ackStreamRecv
  simp only
  split
  · refine Balanced.of_eq (s := s.send (windowUpdateFrame sid (ack (s.recvUnacked sid) k).2)) ?_ rfl rfl rfl rfl rfl
    have hsend := h.send (windowUpdateFrame sid (ack (s.recvUnacked sid) k).2)
    rw [hcredit] at hsend
    simpa using hsend
  · exact h.of_eq rfl rfl rfl rfl rfl

end

/-! ## Steps -/

/-- No bytes wait in the queue of a stream. -/
def Drained (s : Connection) (sid : StreamId) : Prop := bodyBytes (s.bodyQueue sid) = 0

theorem Drained.pushEnd (h : s.Drained sid) : (s.pushBody sid .endOfBody).Drained sid := by
  unfold Drained at h ⊢
  show bodyBytes (Function.update s.bodyQueue sid (s.bodyQueue sid ++ [BodyChunkItem.endOfBody]) sid) = 0
  rw [Function.update_self, bodyBytes_append, h]
  rfl

/-- The step gives no credit away: a DATA frame that is taken on an open stream has no
    padding and fits the stream's window, and a stream is closed only when its queue
    is empty. -/
def Credited (cfg : Settings) (s : Connection) : Event → Prop
  | .frame (.windowUpdate sid increment) =>
    ∀ w, releaseWindow (s.sendWindow sid) (increment &&& 0x7FFFFFFF).toInt32 = .error w → s.Drained sid
  | .frame (.headers sid flags block) =>
    s.stateOf sid = some .stOpen → TrailersOverLimit cfg s flags block → s.Drained sid
  | .frame (.data sid flags body) => s.stateOf sid = some .stOpen →
    ∀ payload, stripPaddingAndPriority false flags body = some payload →
      if s.recvWindow sid < body.val.length then body.val.length = 0 ∧ s.Drained sid
      else s.connRecvWindow < body.val.length ∨ payload.length = body.val.length
  | .frame (.rstStream sid) => s.Drained sid
  | .resume =>
    match s.loop with
    | .ready => True
    | .data sid sr payload endStream =>
      (endStream && lengthMismatch sr.srExpectedLength (sr.srReceivedBytes + payload.length)) = true →
        payload = [] ∧ s.Drained sid
    | .trailers sid => ∀ sr, AssocMap.lookup sid s.streams = some sr →
      lengthMismatch sr.srExpectedLength sr.srReceivedBytes = true → s.Drained sid
  | .done sid => s.Drained sid
  | _ => True

attribute [grind =] Credited

/-- What a step has to keep, unless it closes the connection. -/
def KeepsBalance (s' : Connection) (n : Int) : Prop := s'.connClosed = true ∨ s'.Balanced n

section
variable {n : Int}

/-- A stream is closed by RST_STREAM. -/
theorem Balanced.reset (h : s.Balanced n) (code : ErrorCode) (hd : s.Drained sid) :
    ((s.send (.rstStream sid code)).setState sid .stClosedSrv).Balanced n := by
  have hsend := h.send (.rstStream sid code)
  have hz : n + connCredit (.rstStream sid code) = n := Int.add_zero n
  rw [hz] at hsend
  exact hsend.setState sid .stClosedSrv fun _ => hd

theorem Balanced.send_rst {x : StreamId} (h : s.Balanced n) (code : ErrorCode) :
    (s.send (.rstStream x code)).Balanced n := by
  have hsend := h.send (.rstStream x code)
  have hz : n + connCredit (.rstStream x code) = n := Int.add_zero n
  rwa [hz] at hsend

theorem settings_balanced (h : s.Balanced n) (params : List Param) : KeepsBalance (s.handleSettings params) n := by
  unfold handleSettings
  split
  · exact Or.inl rfl
  · right
    rename_i new _
    have hadj : ({ s with connRemoteSettings := new }.adjustServerStreamWindows
        s.connRemoteSettings.settingsInitialWindowSize new.settingsInitialWindowSize).Balanced n := by
      unfold adjustServerStreamWindows
      split
      · exact h.of_eq rfl rfl rfl rfl rfl
      · exact h.of_eq rfl rfl rfl rfl rfl
    have hsend := hadj.send .settingsAck
    have hz : n + connCredit .settingsAck = n := Int.add_zero n
    rwa [hz] at hsend

theorem windowUpdate_balanced (h : s.Balanced n) (increment : UInt32)
    (hc : Credited cfg s (.frame (.windowUpdate sid increment))) :
    KeepsBalance (s.handleWindowUpdate sid increment) n := by
  unfold handleWindowUpdate
  simp only
  split
  · split
    · exact Or.inl rfl
    · exact Or.inr (h.send_rst .protocolError)
  · split
    · split
      · exact Or.inl rfl
      · exact Or.inr (h.of_eq rfl rfl rfl rfl rfl)
    · split
      · split
        · exact Or.inl rfl
        · exact Or.inr h
      · split
        · rename_i e he
          have hpush := (h.send_rst (x := sid) .flowControlError).pushEnd sid
          exact Or.inr (hpush.setState sid .stClosedSrv fun _ => Drained.pushEnd (hc e he))
        · exact Or.inr (h.of_eq rfl rfl rfl rfl rfl)

theorem admitStream_balanced (h : s.Balanced n) (cfg : Settings) (endStream : Bool) (clHdr : Option Int)
    (hd : s.Drained sid) : (s.admitStream cfg sid endStream clHdr).Balanced n := by
  have hseen : { s with lastPeerStream := sid }.Balanced n := h.of_eq rfl rfl rfl rfl rfl
  have hfresh := fun st => hseen.insertFresh  cfg clHdr st hd
  have hempty : ∀ st, ({ s with lastPeerStream := sid }.insertFresh cfg sid clHdr st).Drained sid := by
    intro st
    show bodyBytes (Function.update s.bodyQueue sid [] sid) = 0
    rw [Function.update_self]
    rfl
  unfold admitStream
  simp only
  split
  · split
    · have hpush := ((hfresh .stHalfClosedRemote).pushEnd sid).send_rst (x := sid) .protocolError
      exact hpush.insertFresh cfg none .stClosedSrv (hempty .stHalfClosedRemote).pushEnd
    · exact ((hfresh .stOpen).send_rst .protocolError).insertFresh cfg none .stClosedSrv (hempty .stOpen)
  · split
    · exact ((hfresh _).pushEnd sid).of_eq rfl rfl rfl rfl rfl
    · exact (hfresh _).of_eq rfl rfl rfl rfl rfl

theorem headers_balanced (h : s.Balanced n) (hready : s.loop = .ready) (cfg : Settings) {flags : FrameFlags}
    {block : ByteString} (hc : Credited cfg s (.frame (.headers sid flags block))) :
    KeepsBalance (s.handleHeaders cfg sid flags block) n := by
  have hdt : ∀ dt, (s.withDecoder dt).Balanced n := fun dt => h.of_eq rfl rfl rfl rfl rfl
  have hnone : s.stateOf sid = none → s.Drained sid := by
    intro hn
    have hd := h.drained sid
    unfold held at hd
    rw [hn] at hd
    exact hd.symm
  rcases handleHeaders_cases cfg s sid flags block with
    ⟨dt, c, he⟩ | ⟨hopen, hover, dt, he⟩ | ⟨-, dt, he⟩ | ⟨hn, dt, he⟩ | ⟨hn, dt, e, cl, he⟩
  · rw [he]
    exact Or.inl rfl
  · rw [he]
    exact Or.inr ((hdt dt).reset .enhanceYourCalm (hc hopen hover))
  · rw [he]
    have hloop := (hdt dt).setLoop (.trailers sid) nofun
    have hz : n + (Loop.trailers sid).bytes - (s.withDecoder dt).loop.bytes = n := by
      show n + 0 - (s.loop.bytes : Int) = n
      rw [hready]
      show n + 0 - 0 = n
      omega
    rw [hz] at hloop
    exact Or.inr hloop
  · rw [he]
    have hseen : { (s.withDecoder dt).send (.rstStream sid .refusedStream) with lastPeerStream := sid }.Balanced n :=
      ((hdt dt).send_rst .refusedStream).of_eq rfl rfl rfl rfl rfl
    exact Or.inr (hseen.insertFresh cfg none .stClosedSrv (hnone hn))
  · rw [he]
    exact Or.inr (admitStream_balanced (hdt dt) cfg e cl (hnone hn))

theorem discardData_balanced (h : s.Balanced n) (sid : StreamId) (flags : FrameFlags) (body : FrameBody) :
    (s.discardData sid flags body).Balanced (n + body.val.length) := by
  have hlen := body.property
  have hback : (if body.val.length > 0 then s.send (windowUpdateFrame 0 body.val.length) else s).Balanced
      (n + body.val.length) := by
    split
    · have hsend := h.send (windowUpdateFrame 0 body.val.length)
      rw [windowUpdateFrame_small 0 (Int.natCast_nonneg _) (by omega)] at hsend ⊢
      exact hsend
    · rename_i hzero
      have hz : n + body.val.length = n := by omega
      rwa [hz]
  unfold discardData
  simp only
  split
  · exact hback.pushEnd sid
  · exact hback

theorem data_balanced (h : s.Balanced n) (hready : s.loop = .ready) {flags : FrameFlags} {body : FrameBody}
    (hc : Credited cfg s (.frame (.data sid flags body))) :
    KeepsBalance (s.handleData sid flags body) (n + body.val.length) := by
  by_cases hsid : sid = 0
  · left
    unfold handleData
    rw [if_pos hsid]
    rfl
  · rcases handleData_cases s sid flags body with ⟨c, he⟩ | ⟨-, he⟩ | ⟨sr, payload, hl, hst, hstrip, he⟩
    · rw [he]
      exact Or.inl rfl
    · rw [he]
      exact Or.inr (discardData_balanced h sid flags body)
    · have hcred := hc (stateOf_some.2 ⟨sr, hl, hst⟩) payload hstrip
      rw [he]
      unfold receiveData
      simp only
      split
      · rename_i hneg
        rw [if_pos (by omega)] at hcred
        have hz : n + body.val.length = n := by omega
        rw [hz]
        refine Or.inr (Balanced.reset ?_ .flowControlError hcred.2)
        exact h.of_eq rfl rfl rfl rfl rfl
      · rename_i hfit
        rw [if_neg (by omega)] at hcred
        split
        · exact Or.inl rfl
        · right
          have hcred := hcred.resolve_left (by omega)
          have hwin : { s with
              recvWindow := Function.update s.recvWindow sid (s.recvWindow sid - body.val.length)
              connRecvWindow := s.connRecvWindow - body.val.length }.Balanced n := h.of_eq rfl rfl rfl rfl rfl
          have hloop := hwin.setLoop (.data sid sr payload (testFlag flags flagEndStream)) (by
            intro x sr' payload' endStream' heq
            cases heq
            rw [hcred]
            exact ⟨hsid, body.property⟩)
          have hz : n + (Loop.data sid sr payload (testFlag flags flagEndStream)).bytes - (s.loop.bytes : Int) =
              n + body.val.length := by
            rw [hready]
            show n + (payload.length : Int) - 0 = _
            rw [hcred, Int.sub_zero]
          change Balanced _ (n + (Loop.data sid sr payload (testFlag flags flagEndStream)).bytes -
            (s.loop.bytes : Int)) at hloop
          rw [hz] at hloop
          exact hloop

theorem rstStream_balanced (h : s.Balanced n) (hd : s.Drained sid) : KeepsBalance (s.handleRstStream sid) n := by
  unfold handleRstStream
  split
  · exact Or.inl rfl
  · split
    · exact Or.inl rfl
    · exact Or.inr ((h.pushEnd sid).setState sid .stClosedSrv fun _ => hd.pushEnd)

theorem finishTrailers_balanced (h : s.Balanced n) (hloop : s.loop = .trailers sid)
    (hc : Credited cfg s .resume) : (s.finishTrailers sid).Balanced n := by
  unfold Credited at hc
  rw [hloop] at hc
  have hready : { s with loop := .ready }.Balanced n := by
    have hset := h.setLoop .ready nofun
    rw [hloop] at hset
    simpa [Loop.bytes] using hset
  unfold finishTrailers
  simp only
  split
  · exact hready
  · rename_i sr hl
    split
    · rename_i hmis
      have hpush := (hready.pushEnd sid).send_rst (x := sid) .protocolError
      exact hpush.setState sid .stClosedSrv fun _ => Drained.pushEnd (hc sr hl hmis)
    · exact (hready.pushEnd sid).setState sid .stHalfClosedRemote nofun

theorem finishData_balanced (h : s.Balanced n) {sr : StreamRec} {payload : ByteString} {endStream : Bool}
    (hloop : s.loop = .data sid sr payload endStream) (hc : Credited cfg s .resume) :
    (s.finishData sid sr payload endStream).Balanced n := by
  unfold Credited at hc
  rw [hloop] at hc
  obtain ⟨hsid, hlen⟩ := h.hand sid sr payload endStream hloop
  have hready : { s with loop := .ready }.Balanced (n - payload.length) := by
    have hset := h.setLoop .ready nofun
    rw [hloop] at hset
    simpa [Loop.bytes] using hset
  have hst : ∀ b : Bool, (if b then ServerStreamState.stHalfClosedRemote else ServerStreamState.stOpen) ≠
      ServerStreamState.stClosedSrv := by decide
  have hinsert := hready.insertLive sid (r := { sr with
    srState := if endStream then ServerStreamState.stHalfClosedRemote else ServerStreamState.stOpen
    srReceivedBytes := sr.srReceivedBytes + payload.length }) (hst endStream)
  have hchunk : ∀ t : Connection, t.Balanced (n - payload.length) → t.stateOf sid = some
      (if endStream then ServerStreamState.stHalfClosedRemote else ServerStreamState.stOpen) →
      (if payload = [] then t else t.pushBody sid (.bytes payload)).Balanced n := by
    intro t ht hlive
    split
    · rename_i hnil
      rw [hnil] at ht
      simpa using ht
    · have hpush := ht.pushBytes hlive (hst endStream) hsid hlen
      rwa [Int.sub_add_cancel] at hpush
  have hqueued := hchunk _ hinsert (by
    unfold stateOf
    rw [AssocMap.lookup_insert, if_pos rfl]
    rfl)
  have hend : ∀ t : Connection, t.Balanced n → (if endStream then t.pushBody sid .endOfBody else t).Balanced n := by
    intro t ht
    split
    · exact ht.pushEnd sid
    · exact ht
  unfold finishData
  simp only
  split
  · rename_i hmis
    obtain ⟨hnil, hd⟩ := hc hmis
    have hrst := (hend _ hqueued).send_rst (x := sid) .protocolError
    refine hrst.setState sid .stClosedSrv fun _ => ?_
    simp only [hnil, if_true]
    show Drained _ sid
    split
    · exact Drained.pushEnd hd
    · exact hd
  · exact hend _ hqueued

theorem makeRequestBody_balanced (h : s.Balanced n) (hs : s.makeRequestBody sid = some s') : s'.Balanced n := by
  unfold makeRequestBody at hs
  split at hs
  · cases hs
  · rename_i bs q hq
    cases hs
    obtain ⟨hsid, hlen⟩ := h.chunk sid bs (by rw [hq]; exact List.mem_cons_self)
    have hpop := h.pop hq rfl fun _ hm => hm
    have hbytes : bodyBytes [.bytes bs] = bs.length := Nat.add_zero _
    rw [hbytes] at hpop
    have hack := hpop.ackConnRecv (k := bs.length) (Int.natCast_nonneg _) (by omega)
    rw [Int.sub_add_cancel] at hack
    exact hack.ackStreamRecv hsid bs.length
  · rename_i q hq
    cases hs
    have hpop := h.pop hq (r := q ++ [.endOfBody]) (by rw [bodyBytes_append]; rfl) (by
      intro bs hm
      rcases List.mem_append.1 hm with hm | hm
      · exact hm
      · cases List.mem_singleton.1 hm)
    have hbytes : bodyBytes [.endOfBody] = 0 := rfl
    rw [hbytes] at hpop
    simpa using hpop

theorem sendDataFrame_balanced (h : s.Balanced n) {endStream : Bool} {k : Nat}
    (hs : s.sendDataFrame sid endStream k = some s') : s'.Balanced n := by
  have hsend : ∀ t : Connection, t.Balanced n → (t.send (.data sid endStream k)).Balanced n := by
    intro t ht
    have hres := ht.send (.data sid endStream k)
    have hz : n + connCredit (.data sid endStream k) = n := Int.add_zero n
    rwa [hz] at hres
  unfold sendDataFrame at hs
  split at hs
  · cases hs
    exact hsend s h
  · split at hs
    · cases hs
      exact hsend _ (h.of_eq rfl rfl rfl rfl rfl)
    · cases hs

/-- **A credited step keeps the balance**, unless it closes the connection. -/
theorem step_balanced {e : Event} (h : s.Balanced n) (hc : Credited cfg s e) (hstep : step cfg s e = some s') :
    KeepsBalance s' (n + frameBytes e) := by
  have hzero : n + (0 : Nat) = n := Int.add_zero n
  unfold step at hstep
  split at hstep
  · cases hstep
  · cases e with
    | frame f =>
      simp only at hstep
      split at hstep
      · rename_i hready
        cases hstep
        cases f with
        | settings params =>
          show KeepsBalance _ (n + (0 : Nat))
          rw [hzero]
          exact settings_balanced h params
        | windowUpdate sid increment =>
          show KeepsBalance _ (n + (0 : Nat))
          rw [hzero]
          exact windowUpdate_balanced h increment hc
        | headers sid flags block =>
          show KeepsBalance _ (n + (0 : Nat))
          rw [hzero]
          exact headers_balanced h hready cfg hc
        | data sid flags body => exact data_balanced h hready hc
        | rstStream sid =>
          show KeepsBalance _ (n + (0 : Nat))
          rw [hzero]
          exact rstStream_balanced h hc
      · cases hstep
    | resume =>
      show KeepsBalance _ (n + (0 : Nat))
      rw [hzero]
      simp only at hstep
      split at hstep
      · cases hstep
      · rename_i hloop
        cases hstep
        exact Or.inr (finishData_balanced h hloop hc)
      · rename_i hloop
        cases hstep
        exact Or.inr (finishTrailers_balanced h hloop hc)
    | read sid =>
      show KeepsBalance _ (n + (0 : Nat))
      rw [hzero]
      exact Or.inr (makeRequestBody_balanced h hstep)
    | sendData sid endStream k =>
      show KeepsBalance _ (n + (0 : Nat))
      rw [hzero]
      simp only at hstep
      split at hstep
      · exact Or.inr (sendDataFrame_balanced h hstep)
      · cases hstep
    | done sid =>
      show KeepsBalance _ (n + (0 : Nat))
      rw [hzero]
      simp only at hstep
      split at hstep
      · cases hstep
        have hdone : { s with handlers := s.handlers.erase sid }.Balanced n := h.of_eq rfl rfl rfl rfl rfl
        exact Or.inr (hdone.setState sid .stClosedSrv fun _ => hc)
      · cases hstep
    | fail sid =>
      show KeepsBalance _ (n + (0 : Nat))
      rw [hzero]
      simp only at hstep
      split at hstep
      · cases hstep
        exact Or.inr (h.of_eq rfl rfl rfl rfl rfl)
      · cases hstep
    | shut =>
      cases hstep
      exact Or.inl rfl

end

end Connection

/-! ## Runs -/

open Connection

theorem balanced_init : Connection.init.Balanced 0 where
  balance := rfl
  unacked := by decide
  ordered := List.Pairwise.nil
  drained _ := rfl
  chunk _ _ hbs := by cases hbs
  hand := nofun

theorem received_snoc (es : List Event) (e : Event) : received (es ++ [e]) = received es + frameBytes e := by
  simp [received]

theorem run_balanced {es : List Event} (hrun : run (step cfg) Connection.init es = some s)
    (hc : Along (step cfg) (Credited cfg) Connection.init es) (hopen : s.connClosed = false) :
    s.Balanced (received es) := by
  have hinv : s.connClosed = true ∨ s.Balanced (received ([] ++ es)) := by
    refine run_induction (I := fun past t => KeepsBalance t (received past)) ?_ (Or.inr balanced_init) hc hrun
    intro past t e t' ht hcred hstep
    rcases ht with hclosed | hbal
    · unfold step at hstep
      rw [if_pos hclosed] at hstep
      cases hstep
    · have hkeep := step_balanced hbal hcred hstep
      rw [received_snoc]
      push_cast
      exact hkeep
  rcases hinv with hclosed | hbal
  · rw [hopen] at hclosed
    cases hclosed
  · exact hbal

/-- What the peer may still send on the connection. -/
def peerWindow (es : List Event) (s : Connection) : Int := 65535 - received es + credited s.sent

/-- **Receive credit is conserved** in every run of credited steps: what came in is the
    credit sent, the counter, what is queued, and what the receive loop is about to
    queue; and when nothing is, less than the threshold is missing from the peer's
    window. -/
theorem credit_conserved (cfg : Settings) (es : List Event) (s : Connection)
    (hrun : run (step cfg) Connection.init es = some s) (hc : Along (step cfg) (Credited cfg) Connection.init es)
    (hopen : s.connClosed = false) :
    (received es : Int) = credited s.sent + s.connRecvUnacked + s.queued + s.loop.bytes ∧
      (s.queued = 0 → s.loop.bytes = 0 →
        65535 - recvWindowAckThreshold < peerWindow es s ∧ peerWindow es s ≤ 65535) := by
  have hbal := run_balanced hrun hc hopen
  have hsum := hbal.balance
  obtain ⟨hlo, hhi⟩ := hbal.unacked
  refine ⟨hsum, fun hq hl => ?_⟩
  unfold peerWindow
  constructor
  · omega
  · omega

/-- A request with one DATA frame, and its handler. -/
def readRun (flags : FrameFlags) (body : FrameBody) : List Event :=
  [.frame (.headers 1 0 postBlock), .frame (.data 1 flags body), .resume, .read 1]

theorem step_after {s : Connection} {e : Event} (h : (step defaultSettings s e).isSome) :
    step defaultSettings s e = some (after s [e]) := by
  obtain ⟨s', hs'⟩ := Option.isSome_iff_exists.1 h
  rw [hs', after, run, hs']
  rfl

theorem oneByte_small : ([7] : ByteString).length < 2 ^ 24 := by decide

/-- The state in the middle of the DATA frame. -/
def midData : Connection :=
  after (after Connection.init [.frame (.headers 1 0 postBlock)]) [.frame (.data 1 0 ⟨[7], oneByte_small⟩)]

theorem credit_conserved_read :
    (received (readRun 0 ⟨[7], by decide⟩) : Int) =
      credited (after Connection.init (readRun 0 ⟨[7], by decide⟩)).sent +
        (after Connection.init (readRun 0 ⟨[7], by decide⟩)).connRecvUnacked +
        (after Connection.init (readRun 0 ⟨[7], by decide⟩)).queued +
        (after Connection.init (readRun 0 ⟨[7], by decide⟩)).loop.bytes := by
  have hresume : Credited defaultSettings midData .resume := by
    have hloop : midData.loop = Loop.data 1 ⟨ServerStreamState.stOpen, none, 0⟩ [7] false := by decide
    unfold Credited
    rw [hloop]
    exact nofun
  have hdata : Credited defaultSettings (after Connection.init [.frame (.headers 1 0 postBlock)])
      (.frame (.data 1 0 ⟨[7], by decide⟩)) := by
    intro _ payload hp
    cases hp
    rw [if_neg (by decide)]
    exact Or.inr rfl
  refine (credit_conserved defaultSettings (readRun 0 ⟨[7], by decide⟩) _ (run_after (by decide)) ?_
    (by decide)).1
  refine (along_cons (step_after (by decide))).2 ⟨fun ho => absurd ho (by decide), ?_⟩
  refine (along_cons (step_after (by decide))).2 ⟨hdata, ?_⟩
  exact (along_cons (step_after (by decide))).2 ⟨hresume, trivial, fun _ _ => trivial⟩

/-- One byte of payload and one of padding, with the byte that counts it. -/
def paddedRun : List Event := readRun 8 ⟨[1, 7, 0], by decide⟩

/-- Two of the three bytes are never given back. -/
theorem padding_lost :
    ¬ ∀ (cfg : Settings) (es : List Event) (s : Connection), run (step cfg) Connection.init es = some s →
      s.connClosed = false → s.loop = .ready →
        (received es : Int) = credited s.sent + s.connRecvUnacked + s.queued := by
  intro hall
  have hsum := hall defaultSettings paddedRun (after Connection.init paddedRun) (run_after (by decide))
    (by decide) (by decide)
  revert hsum
  decide

end Wireform.Http2.Server
