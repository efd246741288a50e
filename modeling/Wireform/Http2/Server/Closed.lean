/-
  Closed streams stay closed, unless a handler finishes at the wrong time.

  The receive loop writes back a record, or a state, on the strength of what it
  read before.  If the handler of that very stream marks it closed in between, the
  mark is overwritten (`reopened`); if no handler does (`Undisturbed`), a closed
  stream is closed ever after and never counts as active (`closed_absorbing`).
-/
import Wireform.Http2.Server.Steps

namespace Wireform.Http2.Server

open Hpack Transition

variable {cfg : Settings} {s s' : Connection} {sid : StreamId}

/-- The receive loop is in the middle of a frame of the stream. -/
def Loop.Holds : Loop → StreamId → Prop
  | .ready, _ => False
  | .data sid _ _ _, x => x = sid
  | .trailers sid, x => x = sid

instance (l : Loop) (x : StreamId) : Decidable (l.Holds x) :=
  match l with
  | .ready => inferInstanceAs (Decidable False)
  | .data sid _ _ _ => inferInstanceAs (Decidable (x = sid))
  | .trailers sid => inferInstanceAs (Decidable (x = sid))

/-- No handler marks its stream closed while the receive loop is in the middle of
    a DATA frame or trailers of that stream. -/
def Undisturbed (s : Connection) : Event → Prop
  | .done sid => ¬ s.loop.Holds sid
  | _ => True

namespace Connection

/-- The stream that the receive loop is in the middle of is open. -/
def HeldOpen (s : Connection) : Prop := ∀ x, s.loop.Holds x → s.stateOf x = some .stOpen

/-- What is closed stays closed, and the map stays in order. -/
structure ClosedKept (s s' : Connection) : Prop where
  closed : ∀ x, s.stateOf x = some .stClosedSrv → s'.stateOf x = some .stClosedSrv
  ordered : AssocMap.Ascending s.streams → AssocMap.Ascending s'.streams

theorem ClosedKept.of_eq (h : s'.streams = s.streams) : ClosedKept s s' where
  closed x hx := by
    rw [stateOf, h]
    exact hx
  ordered ho := h ▸ ho

theorem setState_closed_kept {t : Connection} (ht : t.streams = s.streams) (sid : StreamId) :
    ClosedKept s (t.setState sid .stClosedSrv) where
  closed x hx := by
    have htx : t.stateOf x = some .stClosedSrv := by
      rw [stateOf, ht]
      exact hx
    rw [stateOf_setState]
    split
    · rename_i he
      rw [← he, htx]
      rfl
    · exact htx
  ordered ho := by
    rw [← ht] at ho
    exact ho.adjust _ sid

theorem setState_kept {t : Connection} (ht : t.streams = s.streams) (st : ServerStreamState)
    (h : s.stateOf sid ≠ some .stClosedSrv) : ClosedKept s (t.setState sid st) where
  closed x hx := by
    rw [stateOf_setState, if_neg]
    · rw [stateOf, ht]
      exact hx
    · rintro rfl
      exact h hx
  ordered ho := by
    rw [← ht] at ho
    exact ho.adjust _ sid

/-- A record is put into the map where no closed one was. -/
theorem insert_kept {v : StreamRec} (h : s.stateOf sid ≠ some .stClosedSrv)
    (ht : s'.streams = AssocMap.insert sid v s.streams) : ClosedKept s s' where
  closed x hx := by
    have hne : x ≠ sid := by
      rintro rfl
      exact h hx
    rw [stateOf, ht, AssocMap.lookup_insert, if_neg hne]
    exact hx
  ordered ho := by
    rw [ht]
    exact ho.insert sid v

theorem heldOpen_of_ready (h : s.loop = .ready) : s.HeldOpen := by
  intro x hx
  rw [h] at hx
  exact hx.elim

/-! ## Frames -/

theorem ClosedKept.trans {s₁ s₂ s₃ : Connection} (h12 : ClosedKept s₁ s₂) (h23 : ClosedKept s₂ s₃) :
    ClosedKept s₁ s₃ :=
  ⟨fun x hx => h23.closed x (h12.closed x hx), fun ho => h23.ordered (h12.ordered ho)⟩

theorem admitStream_kept {t : Connection} (ht : t.streams = s.streams) (cfg : Settings)
    (endStream : Bool) (clHdr : Option Int) (h : s.stateOf sid = none) :
    ClosedKept s (t.admitStream cfg sid endStream clHdr) := by
  have hne : s.stateOf sid ≠ some .stClosedSrv := by
    rw [h]
    exact nofun
  unfold admitStream
  simp only
  split
  · rename_i hend
    have hopen : ∀ st : ServerStreamState, st ≠ .stClosedSrv → ∀ u : Connection,
        u.streams = AssocMap.insert sid ⟨st, clHdr, 0⟩ s.streams →
          ClosedKept s (u.insertFresh cfg sid none .stClosedSrv) := by
      intro st hst u hu
      refine (insert_kept hne hu).trans (insert_kept ?_ rfl)
      rw [stateOf, hu, AssocMap.lookup_insert, if_pos rfl]
      simpa using hst
    split
    · exact hopen .stHalfClosedRemote (by decide) _ (by rw [← ht]; rfl)
    · exact hopen .stOpen (by decide) _ (by rw [← ht]; rfl)
  · split
    · exact insert_kept hne (by rw [← ht]; rfl)
    · exact insert_kept hne (by rw [← ht]; rfl)

theorem admitStream_loop (cfg : Settings) (s : Connection) (sid : StreamId) (endStream : Bool)
    (clHdr : Option Int) : (s.admitStream cfg sid endStream clHdr).loop = s.loop := by
  unfold admitStream
  simp only
  split
  · split
    · rfl
    · rfl
  · split
    · rfl
    · rfl

/-- The receive loop takes a frame. -/
theorem handleFrame_kept (cfg : Settings) (hready : s.loop = .ready) (f : Frame) :
    (handleFrame cfg s f).HeldOpen ∧ ClosedKept s (handleFrame cfg s f) := by
  cases f with
  | settings params =>
    have hloop : (s.handleSettings params).loop = s.loop ∧
        (s.handleSettings params).streams = s.streams := by
      unfold handleSettings adjustServerStreamWindows
      split
      · exact ⟨rfl, rfl⟩
      · split
        · exact ⟨rfl, rfl⟩
        · exact ⟨rfl, rfl⟩
    exact ⟨heldOpen_of_ready (hloop.1.trans hready), ClosedKept.of_eq hloop.2⟩
  | windowUpdate sid inc =>
    show (s.handleWindowUpdate sid inc).HeldOpen ∧ ClosedKept s (s.handleWindowUpdate sid inc)
    unfold handleWindowUpdate
    simp only
    split
    · split
      · exact ⟨heldOpen_of_ready hready, ClosedKept.of_eq rfl⟩
      · exact ⟨heldOpen_of_ready hready, ClosedKept.of_eq rfl⟩
    · split
      · split
        · exact ⟨heldOpen_of_ready hready, ClosedKept.of_eq rfl⟩
        · exact ⟨heldOpen_of_ready hready, ClosedKept.of_eq rfl⟩
      · split
        · split
          · exact ⟨heldOpen_of_ready hready, ClosedKept.of_eq rfl⟩
          · exact ⟨heldOpen_of_ready hready, ClosedKept.of_eq rfl⟩
        · split
          · exact ⟨heldOpen_of_ready hready, setState_closed_kept (by rfl) sid⟩
          · exact ⟨heldOpen_of_ready hready, ClosedKept.of_eq rfl⟩
  | headers sid flags block =>
    show (s.handleHeaders cfg sid flags block).HeldOpen ∧ ClosedKept s (s.handleHeaders cfg sid flags block)
    rcases handleHeaders_cases cfg s sid flags block with
      ⟨dt, c, h⟩ | ⟨-, -, dt, h⟩ | ⟨hopen, dt, h⟩ | ⟨hnone, dt, h⟩ | ⟨hnone, dt, e, cl, h⟩
    · rw [h]
      exact ⟨heldOpen_of_ready hready, ClosedKept.of_eq rfl⟩
    · rw [h]
      exact ⟨heldOpen_of_ready hready, setState_closed_kept (by rfl) sid⟩
    · rw [h]
      refine ⟨fun x hx => ?_, ClosedKept.of_eq rfl⟩
      cases hx
      exact hopen
    · rw [h]
      exact ⟨heldOpen_of_ready hready, insert_kept (by rw [hnone]; exact nofun) (by rfl)⟩
    · rw [h]
      refine ⟨heldOpen_of_ready ?_, admitStream_kept (by rfl) cfg e cl hnone⟩
      rw [admitStream_loop]
      exact hready
  | data sid flags body =>
    show (s.handleData sid flags body).HeldOpen ∧ ClosedKept s (s.handleData sid flags body)
    rcases handleData_cases s sid flags body with ⟨c, h⟩ | ⟨-, h⟩ | ⟨sr, payload, hl, hst, -, h⟩
    · rw [h]
      exact ⟨heldOpen_of_ready hready, ClosedKept.of_eq rfl⟩
    · rw [h]
      unfold discardData
      simp only
      split
      · split
        · exact ⟨heldOpen_of_ready hready, ClosedKept.of_eq rfl⟩
        · exact ⟨heldOpen_of_ready hready, ClosedKept.of_eq rfl⟩
      · split
        · exact ⟨heldOpen_of_ready hready, ClosedKept.of_eq rfl⟩
        · exact ⟨heldOpen_of_ready hready, ClosedKept.of_eq rfl⟩
    · rw [h]
      unfold receiveData
      simp only
      split
      · exact ⟨heldOpen_of_ready hready, setState_closed_kept (by rfl) sid⟩
      · split
        · exact ⟨heldOpen_of_ready hready, ClosedKept.of_eq rfl⟩
        · refine ⟨fun x hx => ?_, ClosedKept.of_eq rfl⟩
          cases hx
          exact stateOf_some.2 ⟨sr, hl, hst⟩
  | rstStream sid =>
    show (s.handleRstStream sid).HeldOpen ∧ ClosedKept s (s.handleRstStream sid)
    unfold handleRstStream
    split
    · exact ⟨heldOpen_of_ready hready, ClosedKept.of_eq rfl⟩
    · split
      · exact ⟨heldOpen_of_ready hready, ClosedKept.of_eq rfl⟩
      · exact ⟨heldOpen_of_ready hready, setState_closed_kept (by rfl) sid⟩

/-! ## The rest of a frame -/

theorem finishTrailers_kept (h : s.stateOf sid = some .stOpen) :
    (s.finishTrailers sid).loop = .ready ∧ ClosedKept s (s.finishTrailers sid) := by
  have hne : s.stateOf sid ≠ some .stClosedSrv := by
    rw [h]
    decide
  unfold finishTrailers
  simp only
  split
  · exact ⟨rfl, ClosedKept.of_eq rfl⟩
  · split
    · exact ⟨rfl, setState_closed_kept (by rfl) sid⟩
    · exact ⟨rfl, setState_kept (by rfl) _ hne⟩

theorem finishData_kept (sr : StreamRec) (payload : ByteString) (endStream : Bool)
    (h : s.stateOf sid = some .stOpen) :
    (s.finishData sid sr payload endStream).loop = .ready ∧
      ClosedKept s (s.finishData sid sr payload endStream) := by
  have hne : s.stateOf sid ≠ some .stClosedSrv := by
    rw [h]
    decide
  have hclose : ∀ (t : Connection) (v : StreamRec), t.streams = AssocMap.insert sid v s.streams →
      ClosedKept s ((t.send (.rstStream sid .protocolError)).setState sid .stClosedSrv) :=
    fun t v ht => (insert_kept hne ht).trans (setState_closed_kept (by rfl) sid)
  unfold finishData
  simp only
  split
  · split
    · split
      · exact ⟨rfl, hclose _ _ rfl⟩
      · exact ⟨rfl, hclose _ _ rfl⟩
    · split
      · exact ⟨rfl, hclose _ _ rfl⟩
      · exact ⟨rfl, hclose _ _ rfl⟩
  · split
    · split
      · exact ⟨rfl, insert_kept hne rfl⟩
      · exact ⟨rfl, insert_kept hne rfl⟩
    · split
      · exact ⟨rfl, insert_kept hne rfl⟩
      · exact ⟨rfl, insert_kept hne rfl⟩

/-! ## Handlers -/

theorem makeRequestBody_frame (h : s.makeRequestBody sid = some s') :
    s'.streams = s.streams ∧ s'.loop = s.loop := by
  have hconn : ∀ (t : Connection) (n : Int), (t.ackConnRecv n).streams = t.streams ∧
      (t.ackConnRecv n).loop = t.loop := by
    intro t n
    unfold ackConnRecv
    simp only
    split
    · exact ⟨rfl, rfl⟩
    · exact ⟨rfl, rfl⟩
  have hstream : ∀ (t : Connection) (n : Int), (t.ackStreamRecv sid n).streams = t.streams ∧
      (t.ackStreamRecv sid n).loop = t.loop := by
    intro t n
    unfold ackStreamRecv
    simp only
    split
    · exact ⟨rfl, rfl⟩
    · exact ⟨rfl, rfl⟩
  unfold makeRequestBody at h
  split at h
  · cases h
  · cases h
    exact ⟨((hstream _ _).1).trans (hconn _ _).1, ((hstream _ _).2).trans (hconn _ _).2⟩
  · cases h
    exact ⟨rfl, rfl⟩

theorem sendDataFrame_frame {endStream : Bool} {n : Nat} (h : s.sendDataFrame sid endStream n = some s') :
    s'.streams = s.streams ∧ s'.loop = s.loop := by
  unfold sendDataFrame at h
  split at h
  · cases h
    exact ⟨rfl, rfl⟩
  · split at h
    · cases h
      exact ⟨rfl, rfl⟩
    · cases h

theorem HeldOpen.of_eq (h : s.HeldOpen) (hs : s'.streams = s.streams) (hl : s'.loop = s.loop) :
    s'.HeldOpen := by
  intro x hx
  rw [stateOf, hs]
  exact h x (hl ▸ hx)

/-! ## Steps and runs -/

/-- **A step that no handler disturbs keeps closed streams closed.** -/
theorem step_kept {e : Event} (h : s.HeldOpen) (hu : Undisturbed s e) (hstep : step cfg s e = some s') :
    s'.HeldOpen ∧ ClosedKept s s' := by
  unfold step at hstep
  split at hstep
  · cases hstep
  · cases e with
    | frame f =>
      simp only at hstep
      split at hstep
      · rename_i hready
        cases hstep
        exact handleFrame_kept cfg hready f
      · cases hstep
    | resume =>
      simp only at hstep
      split at hstep
      · cases hstep
      · rename_i sid sr payload endStream hloop
        cases hstep
        have hopen := h sid (by rw [hloop]; rfl)
        obtain ⟨hready, hkept⟩ := finishData_kept sr payload endStream hopen
        exact ⟨heldOpen_of_ready hready, hkept⟩
      · rename_i sid hloop
        cases hstep
        have hopen := h sid (by rw [hloop]; rfl)
        obtain ⟨hready, hkept⟩ := finishTrailers_kept hopen
        exact ⟨heldOpen_of_ready hready, hkept⟩
    | read sid =>
      obtain ⟨hs, hl⟩ := makeRequestBody_frame hstep
      exact ⟨h.of_eq hs hl, ClosedKept.of_eq hs⟩
    | sendData sid endStream n =>
      simp only at hstep
      split at hstep
      · obtain ⟨hs, hl⟩ := sendDataFrame_frame hstep
        exact ⟨h.of_eq hs hl, ClosedKept.of_eq hs⟩
      · cases hstep
    | done sid =>
      simp only at hstep
      split at hstep
      · cases hstep
        refine ⟨fun x hx => ?_, setState_closed_kept (by rfl) sid⟩
        have hne : x ≠ sid := by
          rintro rfl
          exact hu hx
        rw [stateOf_setState, if_neg hne]
        exact h x hx
      · cases hstep
    | fail sid =>
      simp only at hstep
      split at hstep
      · cases hstep
        exact ⟨h.of_eq rfl rfl, ClosedKept.of_eq rfl⟩
      · cases hstep
    | shut =>
      cases hstep
      exact ⟨h.of_eq rfl rfl, ClosedKept.of_eq rfl⟩

end Connection

open Connection

/-- A closed stream is not among the active ones. -/
theorem not_mem_activeStreams (ho : AssocMap.Ascending s.streams) (h : s.stateOf sid = some .stClosedSrv)
    (sr : StreamRec) : (sid, sr) ∉ s.activeStreams := by
  intro hmem
  obtain ⟨hin, hst⟩ := List.mem_filter.1 hmem
  rw [ho.mem_iff] at hin
  obtain ⟨sr', hl, hclosed⟩ := stateOf_some.1 h
  rw [hin] at hl
  cases hl
  simp [hclosed] at hst

/-- **Closed is absorbing**, in every run in which no handler marks its stream
    closed while the receive loop is in the middle of a DATA frame or trailers of
    that stream; and a closed stream never counts as active. -/
theorem closed_absorbing (cfg : Settings) (es es' : List Event) (s s' : Connection)
    (hrun : run (step cfg) Connection.init es = some s) (hrun' : run (step cfg) s es' = some s')
    (h : Along (step cfg) Undisturbed Connection.init (es ++ es')) (sid : StreamId)
    (hclosed : s.stateOf sid = some .stClosedSrv) :
    s'.stateOf sid = some .stClosedSrv ∧ ∀ sr, (sid, sr) ∉ s'.activeStreams := by
  obtain ⟨h1, h2⟩ := along_append hrun h
  have hinit : Connection.init.HeldOpen ∧ AssocMap.Ascending Connection.init.streams :=
    ⟨heldOpen_of_ready rfl, List.Pairwise.nil⟩
  have hinv : ∀ (s : Connection) (e : Event) (s' : Connection),
      s.HeldOpen ∧ AssocMap.Ascending s.streams → Undisturbed s e → step cfg s e = some s' →
        s'.HeldOpen ∧ AssocMap.Ascending s'.streams := by
    intro s e s' ⟨hh, ho⟩ hu hs
    obtain ⟨hh', hk⟩ := step_kept hh hu hs
    exact ⟨hh', hk.ordered ho⟩
  have hs := run_invariant hinv hinit h1 hrun
  have hs' := run_invariant hinv hs h2 hrun'
  have hkept := run_mono (I := HeldOpen)
    (R := fun s s' : Connection => s.stateOf sid = some .stClosedSrv → s'.stateOf sid = some .stClosedSrv)
    (fun _ => id) (fun _ _ _ h12 h23 h => h23 (h12 h))
    (fun s e s' hh hu hs => ⟨(step_kept hh hu hs).1, (step_kept hh hu hs).2.closed sid⟩) hs.1 h2 hrun'
  exact ⟨hkept hclosed, not_mem_activeStreams hs'.2 (hkept hclosed)⟩

/-- "POST / http", as a header block. -/
def postBlock : ByteString := [0x83, 0x84, 0x86]

/-- The state after some events, where they can happen. -/
def after (s : Connection) (es : List Event) : Connection := (run (step defaultSettings) s es).getD s

theorem run_after {s : Connection} {es : List Event} (h : (run (step defaultSettings) s es).isSome) :
    run (step defaultSettings) s es = some (after s es) := by
  obtain ⟨s', hs'⟩ := Option.isSome_iff_exists.1 h
  rw [after, hs']
  rfl

/-- A stream that the peer resets. -/
def afterReset : Connection :=
  after Connection.init [.frame (.headers 1 0 postBlock), .frame (.rstStream 1)]

theorem closed_absorbing_reset :
    (after afterReset [.frame (.data 1 0 ⟨[7], by decide⟩)]).stateOf 1 = some .stClosedSrv :=
  (closed_absorbing defaultSettings [.frame (.headers 1 0 postBlock), .frame (.rstStream 1)]
    [.frame (.data 1 0 ⟨[7], by decide⟩)] afterReset _ (run_after (by decide))
    (run_after (by decide))
    ⟨trivial, fun _ _ => ⟨trivial, fun _ _ => ⟨trivial, fun _ _ => trivial⟩⟩⟩ 1 (by decide)).1

/-- The handler of stream 1 finishes while the receive loop is in the middle of a
    DATA frame. -/
def afterRace : Connection :=
  after Connection.init [.frame (.headers 1 0 postBlock), .frame (.data 1 0 ⟨[7], by decide⟩), .done 1]

/-- The stream is open again. -/
theorem reopened :
    ¬ ∀ (cfg : Settings) (es es' : List Event) (s s' : Connection),
      run (step cfg) Connection.init es = some s → run (step cfg) s es' = some s' → ∀ sid,
        s.stateOf sid = some .stClosedSrv → s'.stateOf sid = some .stClosedSrv := by
  intro hall
  have hclosed := hall defaultSettings _ [.resume] afterRace _ (run_after (by decide))
    (run_after (by decide)) 1 (by decide)
  revert hclosed
  decide

end Wireform.Http2.Server
