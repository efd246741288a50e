/-
  Send flow control.

  The ledger of a connection keeps, for each window, what it was created with, the
  credit of WINDOW_UPDATE frames, the changes by SETTINGS and the bytes sent, as
  integers without bounds.

  * `step_windows`: one step keeps every 32-bit window equal to its ledger;
  * `sendDataFrame_windowsOk`: no DATA frame is sent that the windows do not cover;
  * `flow_exact_iff`: a run is exact, refused updates being reported to the peer,
    if and only if no SETTINGS frame of it would push a stream's window above
    `2 ^ 31 - 1`: that refusal is never reported (`refusal_unreported`).
-/
import Wireform.Http2.Server.Closed

namespace Wireform.Http2.Server

open Hpack Transition

variable {cfg : Settings} {s s' : Connection} {sid : StreamId}

/-! ## The ledger -/

/-- A window: the connection's, or a stream's. -/
inductive Window where
  | conn
  | stream (sid : StreamId)
  deriving DecidableEq

structure Account where
  initial : Int
  credits : Int
  deltas : Int
  sent : Int

def Account.value (a : Account) : Int := a.initial + a.credits + a.deltas - a.sent

/-- An account that was just opened. -/
def Account.opened (initial : Int) : Account := ⟨initial, 0, 0, 0⟩

abbrev Ledger := Window → Account

/-- The ledger of a new connection. -/
def Ledger.init : Ledger
  | .conn => .opened 65535
  | .stream _ => .opened 0

/-- What an event would add to a window: the increment of a WINDOW_UPDATE frame, or
    the change of the initial window size for the streams of the map. -/
def change (s : Connection) : Event → Window → Int
  | .frame (.windowUpdate sid increment), .conn =>
    if sid = 0 then (increment &&& 0x7FFFFFFF).toNat else 0
  | .frame (.windowUpdate sid increment), .stream x =>
    if x = sid ∧ sid ≠ 0 ∧ (s.stateOf sid).isSome then (increment &&& 0x7FFFFFFF).toNat else 0
  | .frame (.settings params), .stream x =>
    match applySettingsParams s.connRemoteSettings params with
    | .ok new =>
      if (s.stateOf x).isSome then
        (new.settingsInitialWindowSize.toNat : Int) - s.connRemoteSettings.settingsInitialWindowSize.toNat
      else 0
    | .error _ => 0
  | _, _ => 0

attribute [grind =] change

/-- The bytes an event sends under a window. -/
def sentBytes : Event → Window → Int
  | .sendData _ _ n, .conn => n.val
  | .sendData sid _ n, .stream x => if x = sid then n.val else 0
  | _, _ => 0

/-- The event creates the stream of a window. -/
def Creates (s s' : Connection) : Event → Window → Prop
  | .frame (.headers sid _ _), .stream x => x = sid ∧ s.stateOf sid = none ∧ s'.stateOf sid ≠ none
  | _, _ => False

instance (s s' : Connection) (e : Event) (w : Window) : Decidable (Creates s s' e w) := by
  unfold Creates
  split
  · exact inferInstance
  · exact inferInstance

/-- A change is entered as credit, or as a change by SETTINGS. -/
def Account.add (a : Account) (e : Event) (c : Int) : Account :=
  match e with
  | .frame (.settings _) => { a with deltas := a.deltas + c }
  | _ => { a with credits := a.credits + c }

/-- The ledger after an event: a change that would push a window above the largest
    one is refused. -/
def Ledger.next (l : Ledger) (s : Connection) (e : Event) (s' : Connection) : Ledger := fun w =>
  if Creates s s' e w then .opened s.connRemoteSettings.settingsInitialWindowSize.toNat
  else
    let a := if (l w).value + change s e w ≤ maxWindow then (l w).add e (change s e w) else l w
    { a with sent := a.sent + sentBytes e w }

@[simp] theorem Account.value_opened (n : Int) : (Account.opened n).value = n := by
  simp [Account.opened, Account.value]

@[simp] theorem Account.value_add (a : Account) (e : Event) (c : Int) : (a.add e c).value = a.value + c := by
  unfold Account.add Account.value
  split
  · simp only
    omega
  · simp only
    omega

theorem Ledger.next_value (l : Ledger) (s : Connection) (e : Event) (s' : Connection) (w : Window) :
    (l.next s e s' w).value =
      if Creates s s' e w then (s.connRemoteSettings.settingsInitialWindowSize.toNat : Int)
      else if (l w).value + change s e w ≤ maxWindow then (l w).value + change s e w - sentBytes e w
      else (l w).value - sentBytes e w := by
  unfold Ledger.next
  split
  · exact Account.value_opened _
  · have hsent : ∀ (a : Account) (n : Int), ({ a with sent := a.sent + n } : Account).value = a.value - n := by
      intro a n
      unfold Account.value
      simp only
      omega
    rw [hsent]
    split
    · rw [Account.value_add]
    · rfl

/-! ## Exactness -/

namespace Connection

def window (s : Connection) : Window → Int32
  | .conn => s.connSendWindow
  | .stream sid => s.sendWindow sid

/-- The windows are what the ledger says, and far enough from the smallest 32-bit
    integer: a stream's window is above what is left of the current initial size
    after a debit of the largest window. -/
structure WindowsOk (s : Connection) (l : Ledger) : Prop where
  exact_value : ∀ w, (s.window w).toInt = (l w).value
  valid : s.connRemoteSettings.Valid
  conn_low : 0 ≤ s.connSendWindow.toInt
  stream_low : ∀ sid, (s.connRemoteSettings.settingsInitialWindowSize.toNat : Int) - maxWindow ≤
    (s.sendWindow sid).toInt
  absent : ∀ sid, s.stateOf sid = none → (s.sendWindow sid).toInt = 0

/-- The send side is as before, and no stream has left the map. -/
structure SendKept (s s' : Connection) : Prop where
  settings : s'.connRemoteSettings = s.connRemoteSettings
  conn : s'.connSendWindow = s.connSendWindow
  stream : s'.sendWindow = s.sendWindow
  grows : ∀ x, s'.stateOf x = none → s.stateOf x = none

theorem toInt_le_maxWindow (w : Int32) : w.toInt ≤ maxWindow := by
  have := w.toInt_lt
  unfold maxWindow
  omega

/-- An event that raises windows of the map, each unless it would go above the
    largest one. -/
theorem WindowsOk.raised {l : Ledger} {e : Event} (h : s.WindowsOk l)
    (hset : s'.connRemoteSettings = s.connRemoteSettings)
    (hgrows : ∀ x, s'.stateOf x = none → s.stateOf x = none) (hpos : ∀ w, 0 ≤ change s e w)
    (habsent : ∀ x, s.stateOf x = none → change s e (.stream x) = 0) (hsent : ∀ w, sentBytes e w = 0)
    (hnew : ∀ w, ¬ Creates s s' e w)
    (hw : ∀ w, (s'.window w).toInt =
      if (s.window w).toInt + change s e w ≤ maxWindow then (s.window w).toInt + change s e w
      else (s.window w).toInt) :
    s'.WindowsOk (l.next s e s') := by
  have hup : ∀ w, (s.window w).toInt ≤ (s'.window w).toInt := by
    intro w
    have hc := hpos w
    rw [hw w]
    split
    · omega
    · exact Int.le_refl _
  constructor
  · intro w
    rw [Ledger.next_value, if_neg (hnew w), hsent, hw, ← h.exact_value w, Int.sub_zero, Int.sub_zero]
  · rw [hset]
    exact h.valid
  · exact Int.le_trans h.conn_low (hup .conn)
  · intro sid
    rw [hset]
    exact Int.le_trans (h.stream_low sid) (hup (.stream sid))
  · intro x hx
    have hx' := hgrows x hx
    have hwx := hw (.stream x)
    rw [habsent x hx', Int.add_zero, ite_self] at hwx
    exact hwx.trans (h.absent x hx')

/-- An event that neither changes a window nor creates a stream. -/
theorem WindowsOk.quiet {l : Ledger} {e : Event} (h : s.WindowsOk l) (hk : SendKept s s')
    (hchange : ∀ w, change s e w = 0) (hsent : ∀ w, sentBytes e w = 0)
    (hnew : ∀ w, ¬ Creates s s' e w) : s'.WindowsOk (l.next s e s') := by
  refine h.raised hk.settings hk.grows (fun w => Int.le_of_eq (hchange w).symm)
    (fun x _ => hchange _) hsent hnew ?_
  intro w
  rw [hchange w, Int.add_zero, ite_self]
  cases w with
  | conn => exact congrArg Int32.toInt hk.conn
  | stream sid => exact congrArg Int32.toInt (congrFun hk.stream sid)

/-- A window that does not change is not above the largest one. -/
theorem WindowsOk.fits {l : Ledger} (h : s.WindowsOk l) {w : Window} {c : Int} (hc : c = 0) :
    (l w).value + c ≤ maxWindow := by
  rw [hc, Int.add_zero, ← h.exact_value w]
  exact toInt_le_maxWindow _

/-! ## What leaves the send side alone -/

theorem SendKept.of_streams (hset : s'.connRemoteSettings = s.connRemoteSettings)
    (hconn : s'.connSendWindow = s.connSendWindow) (hstream : s'.sendWindow = s.sendWindow)
    (h : s'.streams = s.streams) : SendKept s s' where
  settings := hset
  conn := hconn
  stream := hstream
  grows x hx := by
    rw [stateOf, h] at hx
    exact hx

theorem SendKept.refl (s : Connection) : SendKept s s := .of_streams rfl rfl rfl rfl

theorem SendKept.trans {s₁ s₂ s₃ : Connection} (h12 : SendKept s₁ s₂) (h23 : SendKept s₂ s₃) :
    SendKept s₁ s₃ where
  settings := h23.settings.trans h12.settings
  conn := h23.conn.trans h12.conn
  stream := h23.stream.trans h12.stream
  grows x hx := h12.grows x (h23.grows x hx)

theorem send_send (s : Connection) (o : Out) : SendKept s (s.send o) := .of_streams rfl rfl rfl rfl

theorem pushBody_send (s : Connection) (sid : StreamId) (item : BodyChunkItem) :
    SendKept s (s.pushBody sid item) := .of_streams rfl rfl rfl rfl

theorem setState_send (s : Connection) (sid : StreamId) (st : ServerStreamState) :
    SendKept s (s.setState sid st) where
  settings := rfl
  conn := rfl
  stream := rfl
  grows x hx := by
    rw [stateOf_setState] at hx
    split at hx
    · rename_i he
      rw [he]
      exact Option.map_eq_none_iff.1 hx
    · exact hx

/-- A record is put into the map. -/
theorem insert_send {x : StreamId} {r : StreamRec} (loop : Loop) :
    SendKept s { s with loop := loop, streams := AssocMap.insert x r s.streams } where
  settings := rfl
  conn := rfl
  stream := rfl
  grows y hx := by
    have hmap : AssocMap.lookup y (AssocMap.insert x r s.streams) = none := stateOf_none.1 hx
    rw [AssocMap.lookup_insert] at hmap
    split at hmap
    · cases hmap
    · exact stateOf_none.2 hmap

theorem finishTrailers_send (s : Connection) (sid : StreamId) : SendKept s (s.finishTrailers sid) := by
  have hready : SendKept s { s with loop := .ready } := .of_streams rfl rfl rfl rfl
  unfold finishTrailers
  simp only
  split
  · exact hready
  · have hpush := hready.trans (pushBody_send _ sid .endOfBody)
    split
    · exact hpush.trans ((send_send _ _).trans (setState_send _ sid _))
    · exact hpush.trans (setState_send _ sid _)

theorem finishData_send (s : Connection) (sid : StreamId) (sr : StreamRec) (payload : ByteString)
    (endStream : Bool) : SendKept s (s.finishData sid sr payload endStream) := by
  have hpush : ∀ (t : Connection) (b : Prop) [Decidable b] (item : BodyChunkItem), SendKept s t →
      SendKept s (if b then t else t.pushBody sid item) ∧ SendKept s (if b then t.pushBody sid item else t) := by
    intro t b _ item ht
    split
    · exact ⟨ht, ht.trans (pushBody_send t sid item)⟩
    · exact ⟨ht.trans (pushBody_send t sid item), ht⟩
  have hinsert := insert_send (s := s) (x := sid) (r := { sr with
    srState := if endStream then ServerStreamState.stHalfClosedRemote else .stOpen
    srReceivedBytes := sr.srReceivedBytes + payload.length }) .ready
  have hall := (hpush _ (endStream = true) .endOfBody (hpush _ (payload = []) (.bytes payload) hinsert).1).2
  unfold finishData
  simp only
  split
  · exact hall.trans ((send_send _ _).trans (setState_send _ sid _))
  · exact hall

theorem discardData_send (s : Connection) (sid : StreamId) (flags : FrameFlags) (body : ByteString) :
    SendKept s (s.discardData sid flags body) := by
  have hupdate : SendKept s (if body.length > 0 then s.send (windowUpdateFrame 0 body.length) else s) := by
    split
    · exact send_send s _
    · exact SendKept.refl s
  unfold discardData
  simp only
  split
  · exact hupdate.trans (pushBody_send _ sid _)
  · exact hupdate

theorem receiveData_send (s : Connection) (sid : StreamId) (sr : StreamRec) (flags : FrameFlags)
    (body payload : ByteString) : SendKept s (s.receiveData sid sr flags body payload) := by
  have hrecv : SendKept s { s with
      recvWindow := Function.update s.recvWindow sid (s.recvWindow sid - body.length)
      connRecvWindow := s.connRecvWindow - body.length } := .of_streams rfl rfl rfl rfl
  unfold receiveData
  simp only
  split
  · exact hrecv.trans ((send_send _ _).trans (setState_send _ sid _))
  · split
    · exact .of_streams rfl rfl rfl rfl
    · exact .of_streams rfl rfl rfl rfl

theorem handleData_send (s : Connection) (sid : StreamId) (flags : FrameFlags) (body : ByteString) :
    SendKept s (s.handleData sid flags body) := by
  rcases handleData_cases s sid flags body with ⟨c, h⟩ | ⟨-, h⟩ | ⟨sr, payload, -, -, -, h⟩
  · rw [h]
    exact .of_streams rfl rfl rfl rfl
  · rw [h]
    exact discardData_send s sid flags body
  · rw [h]
    exact receiveData_send s sid sr flags body payload

theorem handleRstStream_send (s : Connection) (sid : StreamId) : SendKept s (s.handleRstStream sid) := by
  unfold handleRstStream
  split
  · exact .of_streams rfl rfl rfl rfl
  · split
    · exact .of_streams rfl rfl rfl rfl
    · exact (pushBody_send _ sid _).trans (setState_send _ sid _)

theorem ackConnRecv_send (s : Connection) (n : Int) : SendKept s (s.ackConnRecv n) := by
  unfold ackConnRecv
  simp only
  split
  · exact .of_streams rfl rfl rfl rfl
  · exact .of_streams rfl rfl rfl rfl

theorem ackStreamRecv_send (s : Connection) (sid : StreamId) (n : Int) :
    SendKept s (s.ackStreamRecv sid n) := by
  unfold ackStreamRecv
  simp only
  split
  · exact .of_streams rfl rfl rfl rfl
  · exact .of_streams rfl rfl rfl rfl

theorem makeRequestBody_send (h : s.makeRequestBody sid = some s') : SendKept s s' := by
  unfold makeRequestBody at h
  split at h
  · cases h
  · rename_i bs q _
    cases h
    have h0 : SendKept s { s with bodyQueue := Function.update s.bodyQueue sid q } := .of_streams rfl rfl rfl rfl
    exact h0.trans ((ackConnRecv_send _ bs.length).trans (ackStreamRecv_send _ sid bs.length))
  · cases h
    exact .of_streams rfl rfl rfl rfl

/-! ## Values of the protocol as 32-bit integers -/

theorem toInt_toInt32 {n : UInt32} (h : n ≤ 2147483647) : n.toInt32.toInt = n.toNat := by
  have hle : n.toNat ≤ 2147483647 := UInt32.le_iff_toNat_le.1 h
  have hmod : n.toInt32.toInt = (n.toNat : Int).bmod (2 ^ 32) := BitVec.toInt_eq_toNat_bmod n.toBitVec
  rw [hmod, Int.bmod_eq_of_le (by omega) (by omega)]

theorem and_mask_le (n : UInt32) : n &&& 0x7FFFFFFF ≤ 2147483647 := by
  rw [UInt32.le_iff_toNat_le, UInt32.toNat_and]
  exact Nat.and_le_right

theorem toInt_ofNat_lt {n : Nat} (h : n < 2 ^ 24) : (Int32.ofNat n).toInt = n :=
  Int32.toInt_ofNat_of_lt (by omega)

/-- The settings' initial windows, as the code narrows them. -/
theorem toInt_initialWindow {t : Settings} (h : t.Valid) :
    t.settingsInitialWindowSize.toInt32.toInt = t.settingsInitialWindowSize.toNat ∧
      (t.settingsInitialWindowSize.toNat : Int) ≤ maxWindow := by
  have hle : t.settingsInitialWindowSize.toNat ≤ 2147483647 := UInt32.le_iff_toNat_le.1 h.window
  refine ⟨toInt_toInt32 h.window, ?_⟩
  unfold maxWindow
  omega

/-! ## SETTINGS -/

/-- One window under a change of the initial size: it moves, unless that would
    push it above the largest window. -/
theorem updateInitialWindowSize_toInt {w : Int32} {old new : Settings} (hold : old.Valid) (hnew : new.Valid)
    (hlow : (old.settingsInitialWindowSize.toNat : Int) - maxWindow ≤ w.toInt) :
    (match updateInitialWindowSize w old.settingsInitialWindowSize.toInt32
        new.settingsInitialWindowSize.toInt32 with
      | .ok w' => w'
      | .error _ => w).toInt =
      if w.toInt + ((new.settingsInitialWindowSize.toNat : Int) - old.settingsInitialWindowSize.toNat) ≤ maxWindow
      then w.toInt + ((new.settingsInitialWindowSize.toNat : Int) - old.settingsInitialWindowSize.toNat)
      else w.toInt := by
  obtain ⟨ho, hoMax⟩ := toInt_initialWindow hold
  obtain ⟨hn, hnMax⟩ := toInt_initialWindow hnew
  have hdiff := toInt_diff old.settingsInitialWindowSize.toInt32 new.settingsInitialWindowSize.toInt32
  rw [ho, hn] at hdiff
  have hmax : maxWindow = 2147483647 := rfl
  have h0 : -2 ^ 33 ≤ (new.settingsInitialWindowSize.toInt32.toInt64 -
      old.settingsInitialWindowSize.toInt32.toInt64).toInt := by omega
  have h1 : (new.settingsInitialWindowSize.toInt32.toInt64 -
      old.settingsInitialWindowSize.toInt32.toInt64).toInt ≤ 2 ^ 33 := by omega
  unfold updateInitialWindowSize
  cases hu : shiftWindow w (new.settingsInitialWindowSize.toInt32.toInt64 -
      old.settingsInitialWindowSize.toInt32.toInt64) with
  | ok w' =>
    obtain ⟨hval, hle⟩ := shiftWindow_ok h0 h1 hu (by omega)
    rw [hdiff] at hval hle
    rw [if_pos hle]
    exact hval
  | error e =>
    have hgt := (shiftWindow_error_iff h0 h1).1 ⟨e, hu⟩
    rw [hdiff] at hgt
    rw [if_neg (by omega)]

theorem stateOf_isSome_iff (s : Connection) (x : StreamId) :
    (s.stateOf x).isSome ↔ ∃ sr, AssocMap.lookup x s.streams = some sr := by
  unfold stateOf
  rw [Option.isSome_map, Option.isSome_iff_exists]

/-- The windows of the streams after SETTINGS were applied. -/
theorem adjustServerStreamWindows_toInt {l : Ledger} (h : s.WindowsOk l) {new : Settings} (hnew : new.Valid)
    (x : StreamId) :
    (({ s with connRemoteSettings := new }.adjustServerStreamWindows
        s.connRemoteSettings.settingsInitialWindowSize new.settingsInitialWindowSize).sendWindow x).toInt =
      if (s.stateOf x).isSome ∧ (s.sendWindow x).toInt + ((new.settingsInitialWindowSize.toNat : Int) -
          s.connRemoteSettings.settingsInitialWindowSize.toNat) ≤ maxWindow
      then (s.sendWindow x).toInt + ((new.settingsInitialWindowSize.toNat : Int) -
          s.connRemoteSettings.settingsInitialWindowSize.toNat)
      else (s.sendWindow x).toInt := by
  unfold adjustServerStreamWindows
  by_cases heq : s.connRemoteSettings.settingsInitialWindowSize = new.settingsInitialWindowSize
  · rw [if_pos heq, heq, Int.sub_self, Int.add_zero, ite_self]
  · rw [if_neg heq]
    simp only
    cases hl : AssocMap.lookup x s.streams with
    | none =>
      rw [if_neg]
      rintro ⟨hin, -⟩
      obtain ⟨sr, hsr⟩ := (stateOf_isSome_iff s x).1 hin
      rw [hl] at hsr
      cases hsr
    | some sr =>
      have hin : (s.stateOf x).isSome := (stateOf_isSome_iff s x).2 ⟨sr, hl⟩
      have hu := updateInitialWindowSize_toInt (w := s.sendWindow x) h.valid hnew (h.stream_low x)
      simp only [hin, true_and]
      exact hu

/-- What a SETTINGS frame does. -/
theorem handleSettings_cases (s : Connection) (params : List Param) :
    (∃ e, applySettingsParams s.connRemoteSettings params = .error e ∧
      s.handleSettings params = s.closeConnection .protocolError) ∨
    ∃ new, applySettingsParams s.connRemoteSettings params = .ok new ∧
      s.handleSettings params = ({ s with connRemoteSettings := new }.adjustServerStreamWindows
        s.connRemoteSettings.settingsInitialWindowSize new.settingsInitialWindowSize).send .settingsAck := by
  unfold handleSettings
  cases applySettingsParams s.connRemoteSettings params with
  | error e => exact Or.inl ⟨e, rfl, rfl⟩
  | ok new => exact Or.inr ⟨new, rfl, rfl⟩

theorem adjustServerStreamWindows_frame (s : Connection) (o n : UInt32) :
    (s.adjustServerStreamWindows o n).connRemoteSettings = s.connRemoteSettings ∧
      (s.adjustServerStreamWindows o n).connSendWindow = s.connSendWindow ∧
      (s.adjustServerStreamWindows o n).sent = s.sent := by
  unfold adjustServerStreamWindows
  split
  · exact ⟨rfl, rfl, rfl⟩
  · exact ⟨rfl, rfl, rfl⟩

theorem not_creates_settings (params : List Param) (w : Window) :
    ¬ Creates s s' (.frame (.settings params)) w := fun h => h

theorem settings_windowsOk {l : Ledger} (h : s.WindowsOk l) (params : List Param) :
    (s.handleSettings params).WindowsOk
      (l.next s (.frame (.settings params)) (s.handleSettings params)) := by
  rcases s.handleSettings_cases params with ⟨e, he, hs⟩ | ⟨new, hnew, hs⟩
  · rw [hs]
    refine h.quiet (.of_streams rfl rfl rfl rfl) ?_ (fun w => rfl) (not_creates_settings params)
    intro w
    cases w with
    | conn => rfl
    | stream x =>
      unfold change
      simp only [he]
  · have hvalid := applySettingsParams_valid hnew h.valid
    have hwin := adjustServerStreamWindows_toInt h hvalid
    obtain ⟨hf1, hf2, -⟩ := adjustServerStreamWindows_frame { s with connRemoteSettings := new }
      s.connRemoteSettings.settingsInitialWindowSize new.settingsInitialWindowSize
    obtain ⟨-, hnMax⟩ := toInt_initialWindow hvalid
    obtain ⟨-, hoMax⟩ := toInt_initialWindow h.valid
    rw [hs]
    constructor
    · intro w
      rw [Ledger.next_value, if_neg (not_creates_settings params w)]
      cases w with
      | conn =>
        have hexact := h.exact_value .conn
        have hle := toInt_le_maxWindow s.connSendWindow
        have hzero : change s (.frame (.settings params)) .conn = 0 := rfl
        rw [hzero, if_pos]
        · show (Connection.connSendWindow _).toInt = _
          rw [send, hf2, ← hexact]
          simp [window, sentBytes]
        · rw [← hexact]
          simpa [window] using hle
      | stream x =>
        have hexact := h.exact_value (.stream x)
        have hle := toInt_le_maxWindow (s.sendWindow x)
        have hx := hwin x
        show (Connection.sendWindow _ x).toInt = _
        rw [send, hx, ← hexact]
        unfold change
        simp only [hnew, sentBytes, window]
        by_cases hin : (s.stateOf x).isSome
        · simp only [hin, true_and, if_true]
          split
          · omega
          · omega
        · simp only [hin, Bool.false_eq_true, false_and, if_false]
          rw [if_pos (by omega)]
          omega
    · show (Connection.connRemoteSettings _).Valid
      rw [send, hf1]
      exact hvalid
    · show 0 ≤ (Connection.connSendWindow _).toInt
      rw [send, hf2]
      exact h.conn_low
    · intro x
      have hlow := h.stream_low x
      have hx := hwin x
      show ((Connection.connRemoteSettings _).settingsInitialWindowSize.toNat : Int) - maxWindow ≤
        (Connection.sendWindow _ x).toInt
      rw [send, hf1, hx]
      simp only
      -- a stream's window is kept only if it would have gone above the largest window
      split
      · omega
      · rename_i hnot
        cases hin : s.stateOf x with
        | none =>
          have hzero := h.absent x hin
          omega
        | some st =>
          rw [hin] at hnot
          simp only [Option.isSome_some, true_and] at hnot
          omega
    · intro x hnone
      have hnone' : s.stateOf x = none := by
        rw [stateOf_send] at hnone
        revert hnone
        unfold adjustServerStreamWindows
        split
        · exact id
        · exact id
      show (Connection.sendWindow _ x).toInt = 0
      rw [send, hwin x, if_neg]
      · exact h.absent x hnone'
      · rw [hnone']
        exact nofun

/-! ## WINDOW_UPDATE -/

/-- A FLOW_CONTROL_ERROR for a window is among what a step sends. -/
def Reported (s s' : Connection) (w : Window) : Prop :=
  .goAway .flowControlError ∈ s'.sent.drop s.sent.length ∨
    ∃ sid, w = .stream sid ∧ .rstStream sid .flowControlError ∈ s'.sent.drop s.sent.length

/-- A change above the largest window is refused, and reported. -/
def RefusedOk (s : Connection) (l : Ledger) (e : Event) (s' : Connection) : Prop :=
  ∀ w, maxWindow < (l w).value + change s e w → s'.window w = s.window w ∧ Reported s s' w

theorem WindowsOk.refusedOk {l : Ledger} (h : s.WindowsOk l) {e : Event} (hc : ∀ w, change s e w = 0) :
    RefusedOk s l e s' := by
  intro w hgt
  have hle : (l w).value + change s e w ≤ maxWindow := h.fits (hc w)
  omega

theorem releaseWindow_cases (w : Int32) {n : UInt32} (hn : n ≤ 2147483647) :
    (∃ w', releaseWindow w n.toInt32 = .ok w' ∧ w'.toInt = w.toInt + n.toNat ∧
      w.toInt + n.toNat ≤ maxWindow) ∨
    ∃ e, releaseWindow w n.toInt32 = .error e ∧ maxWindow < w.toInt + n.toNat := by
  have hle : n.toNat ≤ 2147483647 := UInt32.le_iff_toNat_le.1 hn
  have hd : n.toInt32.toInt64.toInt = n.toNat := by
    rw [Int32.toInt_toInt64, toInt_toInt32 hn]
  have h0 : -2 ^ 33 ≤ n.toInt32.toInt64.toInt := by omega
  have h1 : n.toInt32.toInt64.toInt ≤ 2 ^ 33 := by omega
  have hmin := w.le_toInt
  cases hr : releaseWindow w n.toInt32 with
  | ok w' =>
    have hok := shiftWindow_ok h0 h1 hr (by omega)
    rw [hd] at hok
    exact Or.inl ⟨w', rfl, hok⟩
  | error e =>
    have hgt := (shiftWindow_error_iff h0 h1).1 ⟨e, hr⟩
    rw [hd] at hgt
    exact Or.inr ⟨e, rfl, hgt⟩

section
variable {l : Ledger} {increment : UInt32}

theorem change_windowUpdate_conn :
    change s (.frame (.windowUpdate sid increment)) .conn =
      if sid = 0 then ((increment &&& 0x7FFFFFFF).toNat : Int) else 0 := rfl

theorem change_windowUpdate_stream (x : StreamId) :
    change s (.frame (.windowUpdate sid increment)) (.stream x) =
      if x = sid ∧ sid ≠ 0 ∧ (s.stateOf sid).isSome then ((increment &&& 0x7FFFFFFF).toNat : Int) else 0 := rfl

theorem change_windowUpdate_nonneg (w : Window) : 0 ≤ change s (.frame (.windowUpdate sid increment)) w := by
  cases w with
  | conn =>
    rw [change_windowUpdate_conn]
    split
    · exact Int.natCast_nonneg _
    · exact Int.le_refl 0
  | stream x =>
    rw [change_windowUpdate_stream]
    split
    · exact Int.natCast_nonneg _
    · exact Int.le_refl 0

theorem change_windowUpdate_absent (x : StreamId) (hx : s.stateOf x = none) :
    change s (.frame (.windowUpdate sid increment)) (.stream x) = 0 := by
  rw [change_windowUpdate_stream, if_neg]
  rintro ⟨rfl, -, hin⟩
  rw [hx] at hin
  cases hin

/-- What is to be shown of a WINDOW_UPDATE frame. -/
def UpdateOk (s : Connection) (l : Ledger) (sid : StreamId) (increment : UInt32) (s' : Connection) : Prop :=
  s'.WindowsOk (l.next s (.frame (.windowUpdate sid increment)) s') ∧
    RefusedOk s l (.frame (.windowUpdate sid increment)) s'

/-- A WINDOW_UPDATE frame that moves no window. -/
theorem updateOk_quiet (h : s.WindowsOk l) (hk : SendKept s s')
    (hc : ∀ w, change s (.frame (.windowUpdate sid increment)) w = 0) : UpdateOk s l sid increment s' :=
  ⟨h.quiet hk hc (fun _ => rfl) (fun _ hn => hn), h.refusedOk hc⟩

section
variable (h : s.WindowsOk l) (hset : s'.connRemoteSettings = s.connRemoteSettings)
  (hgrows : ∀ x, s'.stateOf x = none → s.stateOf x = none) (w₀ : Window)
  (hother : ∀ w, w ≠ w₀ → change s (.frame (.windowUpdate sid increment)) w = 0 ∧ s'.window w = s.window w)
include h hset hgrows hother

/-- One that raises a window. -/
theorem updateOk_accepted
    (hval : (s'.window w₀).toInt =
      (s.window w₀).toInt + change s (.frame (.windowUpdate sid increment)) w₀)
    (hfit : (s.window w₀).toInt + change s (.frame (.windowUpdate sid increment)) w₀ ≤ maxWindow) :
    UpdateOk s l sid increment s' := by
  constructor
  · refine h.raised hset hgrows change_windowUpdate_nonneg change_windowUpdate_absent
      (fun _ => rfl) (fun _ hn => hn) ?_
    intro w
    by_cases hw : w = w₀
    · rw [hw, if_pos hfit, hval]
    · obtain ⟨hc, hs⟩ := hother w hw
      rw [hc, hs, Int.add_zero, ite_self]
  · intro w hgt
    by_cases hw : w = w₀
    · rw [hw, ← h.exact_value w₀] at hgt
      omega
    · have hle := h.fits (w := w) (hother w hw).1
      omega

/-- One that would push a window above the largest one. -/
theorem updateOk_refused (hsame : s'.window w₀ = s.window w₀)
    (hgt : maxWindow < (s.window w₀).toInt + change s (.frame (.windowUpdate sid increment)) w₀)
    (hrep : Reported s s' w₀) : UpdateOk s l sid increment s' := by
  constructor
  · refine h.raised hset hgrows change_windowUpdate_nonneg change_windowUpdate_absent
      (fun _ => rfl) (fun _ hn => hn) ?_
    intro w
    by_cases hw : w = w₀
    · rw [hw, hsame, if_neg (by omega)]
    · obtain ⟨hc, hs⟩ := hother w hw
      rw [hc, hs, Int.add_zero, ite_self]
  · intro w hgt'
    by_cases hw : w = w₀
    · rw [hw]
      exact ⟨hsame, hrep⟩
    · have hle := h.fits (w := w) (hother w hw).1
      omega

end

/-- On the connection. -/
theorem windowUpdate_conn_ok (h : s.WindowsOk l) (increment : UInt32) (hnz : increment &&& 0x7FFFFFFF ≠ 0) :
    UpdateOk s l 0 increment (s.handleWindowUpdate 0 increment) := by
  have hconn : change s (.frame (.windowUpdate 0 increment)) .conn = (increment &&& 0x7FFFFFFF).toNat := rfl
  have hstream : ∀ w, w ≠ .conn → change s (.frame (.windowUpdate 0 increment)) w = 0 := by
    intro w hw
    cases w with
    | conn => exact absurd rfl hw
    | stream x => exact if_neg fun hx => hx.2.1 rfl
  unfold handleWindowUpdate
  simp only [hnz, if_false, if_true]
  rcases releaseWindow_cases s.connSendWindow (and_mask_le increment) with
    ⟨w', hr, hval, hfit⟩ | ⟨e, hr, hgt⟩
  · simp only [hr]
    refine updateOk_accepted h rfl (fun _ hx => hx) .conn (fun w hw => ⟨hstream w hw, ?_⟩) ?_ ?_
    · cases w with
      | conn => exact absurd rfl hw
      | stream x => rfl
    · rw [hconn]
      exact hval
    · rw [hconn]
      exact hfit
  · simp only [hr]
    refine updateOk_refused h rfl (fun _ hx => hx) .conn (fun w hw => ⟨hstream w hw, ?_⟩) ?_ ?_ ?_
    · cases w with
      | conn => exact absurd rfl hw
      | stream x => rfl
    · rfl
    · rw [hconn]
      exact hgt
    · exact Or.inl (by simp [closeConnection, send])

/-- On a stream of the map. -/
theorem windowUpdate_stream_ok (h : s.WindowsOk l) (increment : UInt32) (hnz : increment &&& 0x7FFFFFFF ≠ 0)
    (hsid : sid ≠ 0) {sr : StreamRec} (hl : AssocMap.lookup sid s.streams = some sr) :
    UpdateOk s l sid increment (s.handleWindowUpdate sid increment) := by
  have hin : (s.stateOf sid).isSome := (stateOf_isSome_iff s sid).2 ⟨sr, hl⟩
  have hstream : change s (.frame (.windowUpdate sid increment)) (.stream sid) =
      (increment &&& 0x7FFFFFFF).toNat := if_pos ⟨rfl, hsid, hin⟩
  have hother : ∀ w, w ≠ .stream sid → change s (.frame (.windowUpdate sid increment)) w = 0 := by
    intro w hw
    cases w with
    | conn => exact if_neg hsid
    | stream x =>
      refine if_neg fun hx => hw ?_
      rw [hx.1]
  unfold handleWindowUpdate
  simp only [hnz, hsid, if_false, hl]
  rcases releaseWindow_cases (s.sendWindow sid) (and_mask_le increment) with
    ⟨w', hr, hval, hfit⟩ | ⟨e, hr, hgt⟩
  · simp only [hr]
    refine updateOk_accepted h rfl (fun _ hx => hx) (.stream sid) (fun w hw => ⟨hother w hw, ?_⟩) ?_ ?_
    · cases w with
      | conn => rfl
      | stream x =>
        refine Function.update_of_ne ?_ _ _
        rintro rfl
        exact hw rfl
    · rw [hstream]
      show (Function.update s.sendWindow sid w' sid).toInt = _
      rw [Function.update_self]
      exact hval
    · rw [hstream]
      exact hfit
  · simp only [hr]
    have hk : SendKept s (((s.send (.rstStream sid .flowControlError)).pushBody sid .endOfBody).setState
        sid .stClosedSrv) :=
      (send_send s _).trans ((pushBody_send _ sid _).trans (setState_send _ sid _))
    refine updateOk_refused h hk.settings hk.grows (.stream sid) (fun w hw => ⟨hother w hw, ?_⟩) ?_ ?_ ?_
    · cases w with
      | conn => exact hk.conn
      | stream x => exact congrFun hk.stream x
    · exact congrFun hk.stream sid
    · rw [hstream]
      exact hgt
    · exact Or.inr ⟨sid, rfl, by simp [setState, pushBody, send]⟩

theorem windowUpdate_ok (h : s.WindowsOk l) (sid : StreamId) (increment : UInt32) :
    UpdateOk s l sid increment (s.handleWindowUpdate sid increment) := by
  by_cases hzero : increment &&& 0x7FFFFFFF = 0
  · have hc : ∀ w, change s (.frame (.windowUpdate sid increment)) w = 0 := by
      intro w
      cases w with
      | conn =>
        rw [change_windowUpdate_conn, hzero]
        exact ite_self _
      | stream x =>
        rw [change_windowUpdate_stream, hzero]
        exact ite_self _
    unfold handleWindowUpdate
    simp only [hzero, if_true]
    split
    · exact updateOk_quiet h (.of_streams rfl rfl rfl rfl) hc
    · exact updateOk_quiet h (.of_streams rfl rfl rfl rfl) hc
  · by_cases hsid : sid = 0
    · rw [hsid]
      exact windowUpdate_conn_ok h increment hzero
    · cases hl : AssocMap.lookup sid s.streams with
      | some sr => exact windowUpdate_stream_ok h increment hzero hsid hl
      | none =>
        have hc : ∀ w, change s (.frame (.windowUpdate sid increment)) w = 0 := by
          intro w
          cases w with
          | conn => exact if_neg hsid
          | stream x =>
            refine if_neg fun hx => ?_
            rw [stateOf_none.2 hl] at hx
            exact nomatch hx.2.2
        unfold handleWindowUpdate
        simp only [hzero, hsid, if_false, hl]
        split
        · exact updateOk_quiet h (.of_streams rfl rfl rfl rfl) hc
        · exact updateOk_quiet h (SendKept.refl s) hc

/-! ## HEADERS -/

section
variable {flags : FrameFlags} {block : ByteString}

/-- The stream is new, with the initial window in force. -/
theorem created_windowsOk (h : s.WindowsOk l) (hnone : s.stateOf sid = none)
    (hset : s'.connRemoteSettings = s.connRemoteSettings) (hconn : s'.connSendWindow = s.connSendWindow)
    (hwin : s'.sendWindow =
      Function.update s.sendWindow sid s.connRemoteSettings.settingsInitialWindowSize.toInt32)
    (hin : s'.stateOf sid ≠ none) (hgrows : ∀ x, s'.stateOf x = none → s.stateOf x = none) :
    s'.WindowsOk (l.next s (.frame (.headers sid flags block)) s') := by
  obtain ⟨hinit, hmax⟩ := toInt_initialWindow h.valid
  have hself : s'.sendWindow sid = s.connRemoteSettings.settingsInitialWindowSize.toInt32 := by
    rw [hwin, Function.update_self]
  have hother : ∀ x, x ≠ sid → s'.sendWindow x = s.sendWindow x := by
    intro x hx
    rw [hwin, Function.update_of_ne hx]
  have hstay : ∀ w, ¬ Creates s s' (.frame (.headers sid flags block)) w → s'.window w = s.window w →
      (s'.window w).toInt = (l.next s (.frame (.headers sid flags block)) s' w).value := by
    intro w hn hw
    have hfits := h.fits (w := w) (c := 0) rfl
    have hc : change s (.frame (.headers sid flags block)) w = 0 := by
      cases w with
      | conn => rfl
      | stream x => rfl
    have hb : sentBytes (.frame (.headers sid flags block)) w = 0 := by
      cases w with
      | conn => rfl
      | stream x => rfl
    rw [Ledger.next_value, if_neg hn, hc, hb, if_pos hfits, hw, h.exact_value w]
    omega
  constructor
  · intro w
    cases w with
    | conn => exact hstay .conn (fun hn => hn) hconn
    | stream x =>
      by_cases hx : x = sid
      · subst hx
        have hcreates : Creates s s' (.frame (.headers x flags block)) (.stream x) := ⟨rfl, hnone, hin⟩
        rw [Ledger.next_value, if_pos hcreates, ← hinit]
        exact congrArg Int32.toInt hself
      · exact hstay (.stream x) (fun hn => hx hn.1) (hother x hx)
  · rw [hset]
    exact h.valid
  · rw [hconn]
    exact h.conn_low
  · intro x
    rw [hset]
    by_cases hx : x = sid
    · subst hx
      rw [hself, hinit]
      unfold maxWindow
      omega
    · rw [hother x hx]
      exact h.stream_low x
  · intro x hx
    have hne : x ≠ sid := by
      rintro rfl
      exact hin hx
    rw [hother x hne]
    exact h.absent x (hgrows x hx)

theorem insertFresh_grows {t : Connection} (ht : ∀ x, t.stateOf x = none → s.stateOf x = none) (cfg : Settings)
    (expected : Option Int) (st : ServerStreamState) (x : StreamId)
    (hx : (t.insertFresh cfg sid expected st).stateOf x = none) : s.stateOf x = none := by
  rw [stateOf_insertFresh] at hx
  split at hx
  · cases hx
  · exact ht x hx

theorem refuseStream_windowsOk (h : s.WindowsOk l) (dt : DynamicTable) (cfg : Settings)
    (hnone : s.stateOf sid = none) :
    ((s.withDecoder dt).refuseStream cfg sid).WindowsOk
      (l.next s (.frame (.headers sid flags block)) ((s.withDecoder dt).refuseStream cfg sid)) := by
  refine created_windowsOk h hnone rfl rfl rfl ?_ (insertFresh_grows (fun _ hx => hx) cfg none .stClosedSrv)
  unfold refuseStream
  rw [stateOf_insertFresh, if_pos rfl]
  exact nofun

theorem admitStream_windowsOk (h : s.WindowsOk l) (dt : DynamicTable) (cfg : Settings)
    (hnone : s.stateOf sid = none) (endStream : Bool) (clHdr : Option Int) :
    ((s.withDecoder dt).admitStream cfg sid endStream clHdr).WindowsOk
      (l.next s (.frame (.headers sid flags block)) ((s.withDecoder dt).admitStream cfg sid endStream clHdr)) := by
  have hfresh := @insertFresh_grows s sid { s.withDecoder dt with lastPeerStream := sid } (fun _ hx => hx) cfg
  have hopen : ∀ st, ({ s.withDecoder dt with lastPeerStream := sid }.insertFresh cfg sid clHdr st).stateOf sid ≠
      none := by
    intro st
    rw [stateOf_insertFresh, if_pos rfl]
    exact nofun
  unfold admitStream
  simp only
  split
  · split
    · refine created_windowsOk h hnone rfl rfl (Function.update_idem _ _ _) ?_
        (insertFresh_grows (fun x hx => hfresh _ _ x hx) cfg none .stClosedSrv)
      rw [stateOf_insertFresh, if_pos rfl]
      exact nofun
    · refine created_windowsOk h hnone rfl rfl (Function.update_idem _ _ _) ?_
        (insertFresh_grows (fun x hx => hfresh _ _ x hx) cfg none .stClosedSrv)
      rw [stateOf_insertFresh, if_pos rfl]
      exact nofun
  · split
    · refine created_windowsOk h hnone rfl rfl rfl ?_ (fun x hx => hfresh _ _ x hx)
      exact hopen _
    · refine created_windowsOk h hnone rfl rfl rfl ?_ (fun x hx => hfresh _ _ x hx)
      exact hopen _

theorem headers_windowsOk (h : s.WindowsOk l) (cfg : Settings) :
    (s.handleHeaders cfg sid flags block).WindowsOk
      (l.next s (.frame (.headers sid flags block)) (s.handleHeaders cfg sid flags block)) := by
  have hquiet : ∀ {t : Connection}, SendKept s t → (s.stateOf sid = none → t.stateOf sid = none) →
      t.WindowsOk (l.next s (.frame (.headers sid flags block)) t) := by
    intro t hk hsame
    refine h.quiet hk ?_ ?_ ?_
    · intro w
      cases w with
      | conn => rfl
      | stream x => rfl
    · intro w
      cases w with
      | conn => rfl
      | stream x => rfl
    · intro w hn
      cases w with
      | conn => exact hn
      | stream x => exact hn.2.2 (hsame hn.2.1)
  rcases handleHeaders_cases cfg s sid flags block with
    ⟨dt, c, he⟩ | ⟨hopen, -, dt, he⟩ | ⟨-, dt, he⟩ | ⟨hnone, dt, he⟩ | ⟨hnone, dt, e, cl, he⟩
  · rw [he]
    exact hquiet (.of_streams rfl rfl rfl rfl) (fun hx => hx)
  · rw [he]
    have hdt : SendKept s ((s.withDecoder dt).send (.rstStream sid .enhanceYourCalm)) := .of_streams rfl rfl rfl rfl
    refine hquiet (hdt.trans (setState_send _ sid _)) ?_
    rw [hopen]
    exact nofun
  · rw [he]
    exact hquiet (.of_streams rfl rfl rfl rfl) (fun hx => hx)
  · rw [he]
    exact refuseStream_windowsOk h dt cfg hnone
  · rw [he]
    exact admitStream_windowsOk h dt cfg hnone e cl

end

/-! ## DATA frames -/

/-- A DATA frame leaves only when both windows cover it, and takes it out of both. -/
theorem sendDataFrame_windowsOk (h : s.WindowsOk l) {endStream : Bool} {n : Fin (2 ^ 24)}
    (hs : s.sendDataFrame sid endStream n = some s') :
    s'.WindowsOk (l.next s (.sendData sid endStream n) s') ∧
      ∀ w, 0 < sentBytes (.sendData sid endStream n) w →
        sentBytes (.sendData sid endStream n) w ≤ (l w).value := by
  have hc : ∀ w, change s (.sendData sid endStream n) w = 0 := by
    intro w
    cases w with
    | conn => rfl
    | stream x => rfl
  have hconn : sentBytes (.sendData sid endStream n) .conn = n.val := rfl
  have hstream : ∀ x, sentBytes (.sendData sid endStream n) (.stream x) =
    if x = sid then (n.val : Int) else 0 := fun _ => rfl
  unfold sendDataFrame at hs
  split at hs
  · rename_i hzero
    cases hs
    have hb : ∀ w, sentBytes (.sendData sid endStream n) w = 0 := by
      intro w
      cases w with
      | conn => rw [hconn, hzero]; rfl
      | stream x => rw [hstream, hzero]; exact ite_self _
    refine ⟨h.quiet (send_send s _) hc hb (fun _ hn => hn), fun w hpos => ?_⟩
    rw [hb w] at hpos
    exact absurd hpos (Int.lt_irrefl 0)
  · split at hs
    · rename_i cw sw hcw hsw
      cases hs
      have hn := toInt_ofNat_lt n.isLt
      have hnonneg : 0 ≤ (Int32.ofNat n.val).toInt := by
        rw [hn]
        exact Int.natCast_nonneg _
      obtain ⟨hcle, hcval⟩ := consumeWindow_some hcw hnonneg
      obtain ⟨hsle, hsval⟩ := consumeWindow_some hsw hnonneg
      rw [hn] at hcle hcval hsle hsval
      have hec := h.exact_value .conn
      have hes := h.exact_value (.stream sid)
      have hnew : ∀ (t : Connection) w, ¬ Creates s t (.sendData sid endStream n) w := fun _ _ hx => hx
      refine ⟨⟨?_, h.valid, ?_, ?_, ?_⟩, ?_⟩
      · intro w
        rw [Ledger.next_value, if_neg (hnew _ w), hc, if_pos (h.fits rfl), ← h.exact_value w]
        cases w with
        | conn =>
          show cw.toInt = s.connSendWindow.toInt + 0 - _
          rw [hcval, hconn]
          omega
        | stream x =>
          show (Function.update s.sendWindow sid sw x).toInt = (s.sendWindow x).toInt + 0 - _
          rw [hstream]
          by_cases hx : x = sid
          · rw [hx, Function.update_self, if_pos rfl, hsval]
            omega
          · rw [Function.update_of_ne hx, if_neg hx]
            omega
      · show 0 ≤ cw.toInt
        omega
      · intro x
        have hmax := (toInt_initialWindow h.valid).2
        show _ ≤ (Function.update s.sendWindow sid sw x).toInt
        by_cases hx : x = sid
        · rw [hx, Function.update_self]
          show (s.connRemoteSettings.settingsInitialWindowSize.toNat : Int) - maxWindow ≤ _
          omega
        · rw [Function.update_of_ne hx]
          exact h.stream_low x
      · intro x hx
        have hzero := h.absent x hx
        show (Function.update s.sendWindow sid sw x).toInt = 0
        by_cases hxs : x = sid
        · -- a stream that is not in the map has no window to send under
          rw [hxs] at hzero
          omega
        · rw [Function.update_of_ne hxs]
          exact hzero
      · intro w hpos
        cases w with
        | conn =>
          rw [hconn, ← hec]
          exact hcle
        | stream x =>
          rw [hstream] at hpos ⊢
          split at hpos
          · rename_i hx
            rw [if_pos hx, hx, ← hes]
            exact hsle
          · exact absurd hpos (Int.lt_irrefl 0)
    · cases hs

end

/-! ## Steps -/

/-- One step of exact flow control: every window is what the ledger says after it,
    a DATA frame is covered by both windows, and a change above the largest window
    is refused and reported. -/
structure StepExact (s : Connection) (l : Ledger) (e : Event) (s' : Connection) : Prop where
  value : ∀ w, (s'.window w).toInt = (l.next s e s' w).value
  covered : ∀ w, 0 < sentBytes e w → sentBytes e w ≤ (l w).value
  refused : RefusedOk s l e s'

/-- No SETTINGS frame would push a window of the map above the largest one. -/
def SettingsFit (s : Connection) : Event → Prop
  | .frame (.settings params) => ∀ new, applySettingsParams s.connRemoteSettings params = .ok new →
    ∀ sid, (s.stateOf sid).isSome → (s.sendWindow sid).toInt + ((new.settingsInitialWindowSize.toNat : Int) -
      s.connRemoteSettings.settingsInitialWindowSize.toNat) ≤ maxWindow
  | _ => True

/-- An event without effect on the windows. -/
theorem quiet_exact {t : Connection} {l : Ledger} {e : Event} (h : s.WindowsOk l) (hk : SendKept s t)
    (hc : ∀ w, change s e w = 0) (hb : ∀ w, sentBytes e w = 0) (hn : ∀ w, ¬ Creates s t e w) :
    t.WindowsOk (l.next s e t) ∧ StepExact s l e t := by
  have hok := h.quiet hk hc hb hn
  refine ⟨hok, hok.exact_value, fun w hpos => ?_, h.refusedOk hc⟩
  rw [hb w] at hpos
  exact absurd hpos (Int.lt_irrefl 0)

/-- A SETTINGS frame answers with an acknowledgement, or closes the connection by
    PROTOCOL_ERROR: a refused change is not reported. -/
theorem settings_refusedOk_iff {l : Ledger} (h : s.WindowsOk l) (params : List Param) :
    RefusedOk s l (.frame (.settings params)) (s.handleSettings params) ↔
      SettingsFit s (.frame (.settings params)) := by
  rcases s.handleSettings_cases params with ⟨e, he, hs⟩ | ⟨new, hnew, hs⟩
  · have hc : ∀ w, change s (.frame (.settings params)) w = 0 := by
      intro w
      cases w with
      | conn => rfl
      | stream x =>
        unfold change
        simp only [he]
    refine iff_of_true (h.refusedOk hc) fun new hnew => ?_
    rw [he] at hnew
    cases hnew
  · have hconn : change s (.frame (.settings params)) .conn = 0 := rfl
    have hstream : ∀ x, change s (.frame (.settings params)) (.stream x) =
        if (s.stateOf x).isSome then (new.settingsInitialWindowSize.toNat : Int) -
          s.connRemoteSettings.settingsInitialWindowSize.toNat else 0 := by
      intro x
      unfold change
      simp only [hnew]
    have hout : (s.handleSettings params).sent.drop s.sent.length = [.settingsAck] := by
      obtain ⟨-, -, hsent⟩ := adjustServerStreamWindows_frame { s with connRemoteSettings := new }
        s.connRemoteSettings.settingsInitialWindowSize new.settingsInitialWindowSize
      rw [hs, send, hsent]
      exact List.drop_left
    constructor
    · intro href new' hnew' x hx
      rw [hnew] at hnew'
      cases hnew'
      by_contra hgt
      have hexact : (s.sendWindow x).toInt = (l (.stream x)).value := h.exact_value (.stream x)
      obtain ⟨-, hrep⟩ := href (.stream x) (by rw [hstream, if_pos hx, ← hexact]; omega)
      rcases hrep with hrep | ⟨y, -, hrep⟩
      · rw [hout] at hrep
        simp at hrep
      · rw [hout] at hrep
        simp at hrep
    · intro hfit w hgt
      exfalso
      cases w with
      | conn =>
        have hle := h.fits (w := .conn) hconn
        omega
      | stream x =>
        have hexact : (s.sendWindow x).toInt = (l (.stream x)).value := h.exact_value (.stream x)
        rw [hstream, ← hexact] at hgt
        split at hgt
        · rename_i hin
          have hle := hfit new hnew x hin
          omega
        · have hle := toInt_le_maxWindow (s.sendWindow x)
          omega

theorem handleFrame_windows (cfg : Settings) {l : Ledger} (h : s.WindowsOk l) (f : Frame) :
    (handleFrame cfg s f).WindowsOk (l.next s (.frame f) (handleFrame cfg s f)) ∧
      (StepExact s l (.frame f) (handleFrame cfg s f) ↔ SettingsFit s (.frame f)) := by
  have hcov : ∀ w, 0 < sentBytes (.frame f) w → sentBytes (.frame f) w ≤ (l w).value := by
    intro w hpos
    cases w with
    | conn => exact absurd hpos (Int.lt_irrefl 0)
    | stream x => exact absurd hpos (Int.lt_irrefl 0)
  cases f with
  | settings params =>
    have hok := settings_windowsOk h params
    have hiff := settings_refusedOk_iff h params
    exact ⟨hok, fun hex => hiff.1 hex.refused, fun hfit => ⟨hok.exact_value, hcov, hiff.2 hfit⟩⟩
  | windowUpdate sid increment =>
    obtain ⟨hok, href⟩ := windowUpdate_ok h sid increment
    exact ⟨hok, iff_of_true ⟨hok.exact_value, hcov, href⟩ trivial⟩
  | headers sid flags block =>
    have hok := @headers_windowsOk s sid l flags block h cfg
    refine ⟨hok, iff_of_true ⟨hok.exact_value, hcov, h.refusedOk fun w => ?_⟩ trivial⟩
    cases w with
    | conn => rfl
    | stream x => rfl
  | data sid flags body =>
    have hc : ∀ w, change s (.frame (.data sid flags body)) w = 0 := by
      intro w
      cases w with
      | conn => rfl
      | stream x => rfl
    obtain ⟨hok, hex⟩ := quiet_exact (e := .frame (.data sid flags body)) h (handleData_send s sid flags body) hc
      (fun _ => rfl) (fun _ hn => hn)
    exact ⟨hok, iff_of_true hex trivial⟩
  | rstStream sid =>
    have hc : ∀ w, change s (.frame (.rstStream sid)) w = 0 := by
      intro w
      cases w with
      | conn => rfl
      | stream x => rfl
    obtain ⟨hok, hex⟩ := quiet_exact (e := .frame (.rstStream sid)) h (handleRstStream_send s sid) hc
      (fun _ => rfl) (fun _ hn => hn)
    exact ⟨hok, iff_of_true hex trivial⟩

/-- **One step keeps every window equal to its ledger**, and is exact if and only
    if it is no SETTINGS frame that pushes a window too high. -/
theorem step_windows {l : Ledger} {e : Event} (h : s.WindowsOk l) (hstep : step cfg s e = some s') :
    s'.WindowsOk (l.next s e s') ∧ (StepExact s l e s' ↔ SettingsFit s e) := by
  unfold step at hstep
  split at hstep
  · cases hstep
  · cases e with
    | frame f =>
      simp only at hstep
      split at hstep
      · cases hstep
        exact handleFrame_windows cfg h f
      · cases hstep
    | resume =>
      have hk : SendKept s s' := by
        simp only at hstep
        split at hstep
        · cases hstep
        · cases hstep
          exact finishData_send s _ _ _ _
        · cases hstep
          exact finishTrailers_send s _
      obtain ⟨hok, hex⟩ := quiet_exact (e := .resume) h hk (fun _ => rfl) (fun _ => rfl) (fun _ hn => hn)
      exact ⟨hok, iff_of_true hex trivial⟩
    | read sid =>
      obtain ⟨hok, hex⟩ := quiet_exact (e := .read sid) h (makeRequestBody_send hstep) (fun _ => rfl)
        (fun _ => rfl) (fun _ hn => hn)
      exact ⟨hok, iff_of_true hex trivial⟩
    | sendData sid endStream n =>
      simp only at hstep
      split at hstep
      · obtain ⟨hok, hcov⟩ := sendDataFrame_windowsOk h hstep
        exact ⟨hok, iff_of_true ⟨hok.exact_value, hcov, h.refusedOk fun _ => rfl⟩ trivial⟩
      · cases hstep
    | done sid =>
      simp only at hstep
      split at hstep
      · cases hstep
        have hk : SendKept s { s with handlers := s.handlers.erase sid } := .of_streams rfl rfl rfl rfl
        obtain ⟨hok, hex⟩ := quiet_exact (e := .done sid) h (hk.trans (setState_send _ sid .stClosedSrv))
          (fun _ => rfl) (fun _ => rfl) (fun _ hn => hn)
        exact ⟨hok, iff_of_true hex trivial⟩
      · cases hstep
    | fail sid =>
      simp only at hstep
      split at hstep
      · cases hstep
        obtain ⟨hok, hex⟩ := quiet_exact (e := .fail sid)
          (t := { s with handlers := s.handlers.erase sid }) h (.of_streams rfl rfl rfl rfl)
          (fun _ => rfl) (fun _ => rfl) (fun _ hn => hn)
        exact ⟨hok, iff_of_true hex trivial⟩
      · cases hstep
    | shut =>
      cases hstep
      obtain ⟨hok, hex⟩ := quiet_exact (e := .shut) (t := s.closeConnection .enhanceYourCalm) h
        (.of_streams rfl rfl rfl rfl) (fun _ => rfl) (fun _ => rfl) (fun _ hn => hn)
      exact ⟨hok, iff_of_true hex trivial⟩

end Connection

/-! ## Runs -/

open Connection

/-- Every step of a run is exact. -/
def RunExact (cfg : Settings) : Connection → Ledger → List Event → Prop
  | _, _, [] => True
  | s, l, e :: es => ∀ s', step cfg s e = some s' → StepExact s l e s' ∧ RunExact cfg s' (l.next s e s') es

theorem windowsOk_init : Connection.init.WindowsOk Ledger.init where
  exact_value w := by
    cases w with
    | conn => decide
    | stream x =>
      rw [Ledger.init, Account.value_opened]
      show (0 : Int32).toInt = 0
      decide
  valid := defaultSettings_valid
  conn_low := by decide
  stream_low x := by
    show ((defaultSettings.settingsInitialWindowSize).toNat : Int) - maxWindow ≤ (0 : Int32).toInt
    decide
  absent x _ := by
    show (0 : Int32).toInt = 0
    decide

/-- Exact steps, by induction along the run. -/
theorem runExact_iff {l : Ledger} {es : List Event} (h : s.WindowsOk l) (hrun : run (step cfg) s es = some s') :
    RunExact cfg s l es ↔ Along (step cfg) SettingsFit s es := by
  induction es generalizing s l with
  | nil => exact Iff.rfl
  | cons e es ih =>
    obtain ⟨s₁, he, hrun'⟩ := run_cons.1 hrun
    obtain ⟨hok, hiff⟩ := step_windows h he
    rw [along_cons he, ← hiff, ← ih hok hrun']
    constructor
    · intro hex
      exact hex s₁ he
    · intro hex s₂ h₂
      rw [he] at h₂
      cases h₂
      exact hex

/-- **Send flow control is exact** in a run if and only if no SETTINGS frame of it
    would push the window of a stream above `2 ^ 31 - 1`. -/
theorem flow_exact_iff (cfg : Settings) (es : List Event) (s : Connection)
    (hrun : run (step cfg) Connection.init es = some s) :
    RunExact cfg Connection.init Ledger.init es ↔ Along (step cfg) SettingsFit Connection.init es :=
  runExact_iff windowsOk_init hrun

/-- A stream whose window is the largest one. -/
def widestRun : List Event :=
  [.frame (.headers 1 0 postBlock), .frame (.windowUpdate 1 2147418112)]

/-- The peer raises the initial window size by one. -/
def raiseInitial : Event := .frame (.settings [⟨4, 65536⟩])

theorem flow_exact_iff_widest : RunExact defaultSettings Connection.init Ledger.init widestRun :=
  (flow_exact_iff defaultSettings widestRun _ (run_after (by decide))).2
    ⟨trivial, fun _ _ => ⟨trivial, fun _ _ => trivial⟩⟩

/-- The change of the window of stream 1 is refused, and only the SETTINGS frame is
    acknowledged. -/
theorem refusal_unreported :
    ¬ ∀ (cfg : Settings) (es : List Event) (s : Connection), run (step cfg) Connection.init es = some s →
      RunExact cfg Connection.init Ledger.init es := by
  intro hall
  have hfirst : run (step defaultSettings) Connection.init widestRun = some (after Connection.init widestRun) :=
    run_after (by decide)
  have hrun : run (step defaultSettings) Connection.init (widestRun ++ [raiseInitial]) = some _ :=
    run_after (by decide)
  have halong := (runExact_iff windowsOk_init hrun).1 (hall _ _ _ hrun)
  have hfit := (along_append hfirst halong).2.1 { defaultSettings with settingsInitialWindowSize := 65536 }
    (by decide) 1 (by decide)
  revert hfit
  decide

end Wireform.Http2.Server
