/-
  What the steps of the server can do.

  One lemma for each frame that has several outcomes, with the state after it in
  terms of the common actions; `step_cases` collects them.  What is proved about
  every run is proved from these, and not from the definitions.
-/
import Wireform.Http2.Server.Model

namespace Wireform.Http2.Server

open Hpack

variable {cfg : Settings} {s s' : Connection} {sid : StreamId} {flags : FrameFlags}

namespace Connection

/-- The state of a stream in the map. -/
def stateOf (s : Connection) (sid : StreamId) : Option ServerStreamState :=
  (AssocMap.lookup sid s.streams).map StreamRec.srState

theorem stateOf_some {st : ServerStreamState} :
    s.stateOf sid = some st ↔ ∃ sr, AssocMap.lookup sid s.streams = some sr ∧ sr.srState = st :=
  Option.map_eq_some_iff

theorem stateOf_none : s.stateOf sid = none ↔ AssocMap.lookup sid s.streams = none :=
  Option.map_eq_none_iff

@[simp] theorem stateOf_send (s : Connection) (o : Out) (x : StreamId) :
    (s.send o).stateOf x = s.stateOf x := rfl

@[simp] theorem stateOf_pushBody (s : Connection) (sid : StreamId) (item : BodyChunkItem) (x : StreamId) :
    (s.pushBody sid item).stateOf x = s.stateOf x := rfl

@[simp] theorem stateOf_setState (s : Connection) (sid : StreamId) (st : ServerStreamState) (x : StreamId) :
    (s.setState sid st).stateOf x = if x = sid then (s.stateOf sid).map fun _ => st else s.stateOf x := by
  unfold stateOf setState
  rw [AssocMap.lookup_adjust]
  split
  · rw [Option.map_map, Option.map_map]
    rfl
  · rfl

@[simp] theorem stateOf_insertFresh (s : Connection) (cfg : Settings) (sid : StreamId)
    (expected : Option Int) (st : ServerStreamState) (x : StreamId) :
    (s.insertFresh cfg sid expected st).stateOf x = if x = sid then some st else s.stateOf x := by
  unfold stateOf insertFresh
  rw [AssocMap.lookup_insert]
  split
  · rfl
  · rfl

/-- The same connection with another decoder table. -/
def withDecoder (s : Connection) (dt : DynamicTable) : Connection := { s with connHpackDecoder := dt }

theorem decodeHeaders_cases (s : Connection) (block : ByteString) :
    (∃ hs dt, s.decodeHeaders block = (some hs, s.withDecoder dt)) ∨
      ∃ dt, s.decodeHeaders block = (none, (s.withDecoder dt).closeConnection .compressionError) := by
  unfold decodeHeaders
  split
  · exact Or.inl ⟨_, _, rfl⟩
  · exact Or.inr ⟨_, rfl⟩

/-- The trailers in a HEADERS frame are over the limit for header lists. -/
def TrailersOverLimit (cfg : Settings) (s : Connection) (flags : FrameFlags) (body : ByteString) : Prop :=
  ∃ block trailers, stripPaddingAndPriority true flags body = some block ∧
    (s.decodeHeaders block).1 = some trailers ∧ overHeaderListLimit cfg trailers = true

theorem handleTrailers_cases (cfg : Settings) (s : Connection) (sid : StreamId) (flags : FrameFlags)
    (body : ByteString) :
    (∃ dt c, s.handleTrailers cfg sid flags body = (s.withDecoder dt).closeConnection c) ∨
    (TrailersOverLimit cfg s flags body ∧ ∃ dt, s.handleTrailers cfg sid flags body =
      ((s.withDecoder dt).send (.rstStream sid .enhanceYourCalm)).setState sid .stClosedSrv) ∨
    ∃ dt, s.handleTrailers cfg sid flags body = { s.withDecoder dt with loop := .trailers sid } := by
  unfold handleTrailers
  split
  · exact Or.inl ⟨s.connHpackDecoder, _, rfl⟩
  · cases hstrip : stripPaddingAndPriority true flags body with
    | none => exact Or.inl ⟨s.connHpackDecoder, _, rfl⟩
    | some block =>
      rcases s.decodeHeaders_cases block with ⟨hs, dt, hd⟩ | ⟨dt, hd⟩
      · simp only [hd]
        split
        · rename_i hover
          exact Or.inr (Or.inl ⟨⟨block, hs, hstrip, by rw [hd], hover⟩, dt, rfl⟩)
        · split
          · exact Or.inl ⟨dt, _, rfl⟩
          · exact Or.inr (Or.inr ⟨dt, rfl⟩)
      · simp only [hd]
        exact Or.inl ⟨dt, _, rfl⟩

theorem handleFreshStream_cases (cfg : Settings) (s : Connection) (sid : StreamId) (flags : FrameFlags)
    (body : ByteString) :
    (∃ dt c, s.handleFreshStream cfg sid flags body = (s.withDecoder dt).closeConnection c) ∨
    (∃ dt, s.handleFreshStream cfg sid flags body = (s.withDecoder dt).refuseStream cfg sid) ∨
    ∃ dt endStream clHdr, s.handleFreshStream cfg sid flags body =
      (s.withDecoder dt).admitStream cfg sid endStream clHdr := by
  unfold handleFreshStream
  split
  · exact Or.inl ⟨s.connHpackDecoder, _, rfl⟩
  · split
    · exact Or.inl ⟨s.connHpackDecoder, _, rfl⟩
    · cases stripPaddingAndPriority true flags body with
      | none => exact Or.inl ⟨s.connHpackDecoder, _, rfl⟩
      | some block =>
        rcases s.decodeHeaders_cases block with ⟨hs, dt, hd⟩ | ⟨dt, hd⟩
        · simp only [hd]
          split
          · exact Or.inr (Or.inl ⟨dt, rfl⟩)
          · split
            · exact Or.inl ⟨dt, _, rfl⟩
            · unfold acceptStream
              split
              · split
                · exact Or.inr (Or.inl ⟨dt, rfl⟩)
                · exact Or.inr (Or.inr ⟨dt, _, _, rfl⟩)
              · exact Or.inr (Or.inr ⟨dt, _, _, rfl⟩)
        · simp only [hd]
          exact Or.inl ⟨dt, _, rfl⟩

/-- What a HEADERS frame does: it closes the connection, it begins or refuses the
    trailers of an open stream, or it admits or refuses a stream that is not in
    the map. -/
theorem handleHeaders_cases (cfg : Settings) (s : Connection) (sid : StreamId) (flags : FrameFlags)
    (body : ByteString) :
    (∃ dt c, s.handleHeaders cfg sid flags body = (s.withDecoder dt).closeConnection c) ∨
    (s.stateOf sid = some .stOpen ∧ TrailersOverLimit cfg s flags body ∧ ∃ dt,
      s.handleHeaders cfg sid flags body =
        ((s.withDecoder dt).send (.rstStream sid .enhanceYourCalm)).setState sid .stClosedSrv) ∨
    (s.stateOf sid = some .stOpen ∧ ∃ dt,
      s.handleHeaders cfg sid flags body = { s.withDecoder dt with loop := .trailers sid }) ∨
    (s.stateOf sid = none ∧ ∃ dt,
      s.handleHeaders cfg sid flags body = (s.withDecoder dt).refuseStream cfg sid) ∨
    (s.stateOf sid = none ∧ ∃ dt endStream clHdr,
      s.handleHeaders cfg sid flags body = (s.withDecoder dt).admitStream cfg sid endStream clHdr) := by
  unfold handleHeaders
  split
  · exact Or.inl ⟨s.connHpackDecoder, _, rfl⟩
  · cases hl : AssocMap.lookup sid s.streams with
    | none =>
      rcases handleFreshStream_cases cfg s sid flags body with h | h | h
      · exact Or.inl h
      · exact Or.inr (Or.inr (Or.inr (Or.inl ⟨stateOf_none.2 hl, h⟩)))
      · exact Or.inr (Or.inr (Or.inr (Or.inr ⟨stateOf_none.2 hl, h⟩)))
    | some sr =>
      cases hst : sr.srState with
      | stClosedSrv =>
        simp only [hst]
        exact Or.inl ⟨s.connHpackDecoder, _, rfl⟩
      | stHalfClosedRemote =>
        simp only [hst]
        exact Or.inl ⟨s.connHpackDecoder, _, rfl⟩
      | stOpen =>
        simp only [hst]
        rcases handleTrailers_cases cfg s sid flags body with h | ⟨hover, h⟩ | h
        · exact Or.inl h
        · exact Or.inr (Or.inl ⟨stateOf_some.2 ⟨sr, hl, hst⟩, hover, h⟩)
        · exact Or.inr (Or.inr (Or.inl ⟨stateOf_some.2 ⟨sr, hl, hst⟩, h⟩))

/-- What a DATA frame does first. -/
theorem handleData_cases (s : Connection) (sid : StreamId) (flags : FrameFlags) (body : ByteString) :
    (∃ c, s.handleData sid flags body = s.closeConnection c) ∨
    (s.stateOf sid = some .stClosedSrv ∧ s.handleData sid flags body = s.discardData sid flags body) ∨
    ∃ sr payload, AssocMap.lookup sid s.streams = some sr ∧ sr.srState = .stOpen ∧
      stripPaddingAndPriority false flags body = some payload ∧
      s.handleData sid flags body = s.receiveData sid sr flags body payload := by
  unfold handleData
  split
  · exact Or.inl ⟨_, rfl⟩
  · cases hl : AssocMap.lookup sid s.streams with
    | none => exact Or.inl ⟨_, rfl⟩
    | some sr =>
      cases hst : sr.srState with
      | stHalfClosedRemote =>
        simp only [hst]
        exact Or.inl ⟨_, rfl⟩
      | stClosedSrv =>
        simp only [hst]
        cases stripPaddingAndPriority false flags body with
        | none => exact Or.inl ⟨_, rfl⟩
        | some payload => exact Or.inr (Or.inl ⟨stateOf_some.2 ⟨sr, hl, hst⟩, rfl⟩)
      | stOpen =>
        simp only [hst]
        cases hp : stripPaddingAndPriority false flags body with
        | none => exact Or.inl ⟨_, rfl⟩
        | some payload => exact Or.inr (Or.inr ⟨sr, payload, rfl, hst, rfl, rfl⟩)

end Connection

end Wireform.Http2.Server
