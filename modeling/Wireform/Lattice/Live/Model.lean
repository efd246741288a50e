/-
  Live subscriptions: one group of subscribers to the same query.

  The group's worker re-executes the query after the events of the invalidation bus, and
  sends its subscribers what has changed since its last emission.  A subscriber starts
  with a snapshot of its own.

  * `snapshotFrames`, `deltaFrames`, `emissionOf`: what is sent, and what the next delta is
    compared with;
  * `pushFrame`, `popFrame`: the bounded queue of a subscriber;
  * `register`: a subscriber comes in, with the snapshot that it has executed;
  * `process`: the worker's turn for a batch of events;
  * `step`: any of these.

  An execution is a parameter of the step in which it happens, so the backend may have
  changed in any way between two of them.  The group is one of a table of groups, which
  share nothing; joining and processing exclude one another by the group's lock.
-/
import Mathlib.Data.Prod.Lex
import Wireform.Filing
import Wireform.Transition

namespace Wireform.Lattice.Live

open AssocMap

-- slices, entity ids, root maps, bodies of records, bytes on the wire and surrogate keys
variable {σ ι ρ β γ χ : Type}

/-! ## Records and frames -/

structure Manifest (σ ρ : Type) where
  slice : σ
  root : ρ
  etag : String
deriving DecidableEq

inductive Record (σ ι ρ β : Type) where
  | manifest (m : Manifest σ ρ)
  | entity (id : ι) (body : β)
  | tombstone (id : ι) (ver : String)
  | elided (id : ι)
  | unchanged (id : ι) (ver : String)
  | error (body : β)
  | ending (complete : Bool) (etag : Option String)
  | reauth
deriving DecidableEq

/-- The id of a record that carries one. -/
def recordId : Record σ ι ρ β → Option ι
  | .entity i _ | .tombstone i _ | .elided i | .unchanged i _ => some i
  | _ => none

def isEntity : Record σ ι ρ β → Bool
  | .entity .. => true
  | _ => false

def isManifest : Record σ ι ρ β → Bool
  | .manifest _ => true
  | _ => false

/-- What is written to the stream.  The section is not on the wire: a record belongs to the
    slice whose part of the burst it is in. -/
inductive Frame (σ ι ρ β : Type) where
  | comment (text : String)
  | dispatch (section_ : Option σ) (eventId : Option Nat) (r : Record σ ι ρ β)

/-! ## Snapshots -/

/-- The part of one slice in an execution.  Its records carry distinct ids, they are no
    manifests, and the manifest has the root membership. -/
structure LiveSection (σ ι ρ β : Type) where
  slice : σ
  manifest : Manifest σ ρ
  records : List (Record σ ι ρ β)
  root : ρ
  etag : String
  distinct : (records.filterMap recordId).Nodup
  no_manifest : ∀ r ∈ records, isManifest r = false
  root_eq : manifest.root = root

structure LiveSnapshot (σ ι ρ β χ : Type) where
  sections : List (LiveSection σ ι ρ β)
  keys : List χ
  complete : Bool
  distinct : (sections.map LiveSection.slice).Nodup

def etagVector (snap : LiveSnapshot σ ι ρ β χ) : List (σ × String) :=
  snap.sections.map fun sec => (sec.slice, sec.etag)

/-- A stream of a single section has its etag in the end record. -/
def endRecord (snap : LiveSnapshot σ ι ρ β χ) : Record σ ι ρ β :=
  .ending snap.complete (match snap.sections with | [sec] => some sec.etag | _ => none)

def recordFrame (section_ : Option σ) (cursor : Option Nat) (r : Record σ ι ρ β) : Frame σ ι ρ β :=
  .dispatch section_ cursor r

def sectionFrames (sec : LiveSection σ ι ρ β) : List (Frame σ ι ρ β) :=
  (.manifest sec.manifest :: sec.records).map (recordFrame (some sec.slice) none)

def snapshotFrames (snap : LiveSnapshot σ ι ρ β χ) : List (Frame σ ι ρ β) :=
  snap.sections.flatMap sectionFrames ++ [recordFrame none none (endRecord snap)]

/-! ## Emissions -/

/-- What every delta is compared with: the last emission of the group. -/
structure LiveEmission (σ ι ρ γ χ : Type) where
  bytes : AssocMap (σ ×ₗ ι) γ
  etags : List (σ × String)
  roots : AssocMap σ ρ
  keys : List χ

def LiveEmission.empty : LiveEmission σ ι ρ γ χ := ⟨[], [], [], []⟩

/-- The bytes of every record that carries an id, under its slice and id. -/
def sectionBytes (encode : Record σ ι ρ β → γ) (sec : LiveSection σ ι ρ β) : List ((σ ×ₗ ι) × γ) :=
  sec.records.filterMap fun r => (recordId r).map fun i => (toLex (sec.slice, i), encode r)

variable [LinearOrder σ] [LinearOrder ι] (encode : Record σ ι ρ β → γ)

def recordBytes (secs : List (LiveSection σ ι ρ β)) : AssocMap (σ ×ₗ ι) γ :=
  fromList (secs.flatMap (sectionBytes encode))

def emissionOf (snap : LiveSnapshot σ ι ρ β χ) : LiveEmission σ ι ρ γ χ :=
  { bytes := recordBytes encode snap.sections
    etags := etagVector snap
    roots := fromList (snap.sections.map fun sec => (sec.slice, sec.root))
    keys := snap.keys }

variable [DecidableEq ρ] [DecidableEq γ]

def changed (prev : LiveEmission σ ι ρ γ χ) (slice : σ) (r : Record σ ι ρ β) : Bool :=
  match recordId r with
  | none => false
  | some i => lookup (toLex (slice, i)) prev.bytes ≠ some (encode r)

def sectionDelta (prev : LiveEmission σ ι ρ γ χ) (sec : LiveSection σ ι ρ β) : List (Record σ ι ρ β) :=
  let changedRecs := sec.records.filter (changed encode prev sec.slice)
  (if lookup sec.slice prev.roots ≠ some sec.root then [.manifest sec.manifest] else []) ++
    changedRecs.filter isEntity ++ changedRecs.filter fun r => !isEntity r

/-- The delta, or nothing when the etags are those of the last emission. -/
def deltaFrames (cursor : Nat) (prev : LiveEmission σ ι ρ γ χ) (snap : LiveSnapshot σ ι ρ β χ) :
    List (Frame σ ι ρ β) :=
  if etagVector snap = prev.etags then []
  else
    snap.sections.flatMap (fun sec => (sectionDelta encode prev sec).map (recordFrame (some sec.slice) (some cursor))) ++
      [recordFrame none (some cursor) (endRecord snap)]

/-! ## Subscribers -/

/-- `received` are all frames that were ever queued, also those that were popped. -/
structure Subscriber (σ ι ρ β : Type) where
  queue : List (Frame σ ι ρ β)
  closed : Bool
  activity : Nat
  received : List (Frame σ ι ρ β)

def Subscriber.new : Subscriber σ ι ρ β := ⟨[], false, 0, []⟩

def subscriberQueueBound : Nat := 1024

/-- A subscriber that is too far behind is closed. -/
def pushFrame (s : Subscriber σ ι ρ β) (f : Frame σ ι ρ β) : Subscriber σ ι ρ β :=
  if s.closed then s
  else if subscriberQueueBound ≤ s.queue.length then { s with closed := true }
  else
    { s with
      queue := s.queue ++ [f]
      activity := match f with | .dispatch .. => s.activity + 1 | .comment _ => s.activity
      received := s.received ++ [f] }

def popFrame (s : Subscriber σ ι ρ β) : Subscriber σ ι ρ β := { s with queue := s.queue.tail }

def pushFrames (s : Subscriber σ ι ρ β) (fs : List (Frame σ ι ρ β)) : Subscriber σ ι ρ β := fs.foldl pushFrame s

/-! ## The group -/

structure LiveGroup (σ ι ρ β γ χ : Type) where
  last : LiveEmission σ ι ρ γ χ
  members : AssocMap Nat (Subscriber σ ι ρ β)
  nextId : Nat
  stop : Bool
  /-- The events the worker has not taken: outbox cursors, with the keys they purge. -/
  bus : List (Nat × List χ)
  /-- The events the worker has taken. -/
  batch : Option (List (Nat × List χ))

/-- The group that its first subscriber makes. -/
def LiveGroup.new : LiveGroup σ ι ρ β γ χ := ⟨.empty, [], 1, false, [], none⟩

/-- What an execution of the plan ends with. -/
inductive Execution (σ ι ρ β χ : Type) where
  | refused
  /-- No single snapshot of the storage could be had. -/
  | contended
  | snapshot (snap : LiveSnapshot σ ι ρ β χ)

/-- A subscriber registers with its own snapshot.  The first one's is the basis of the group;
    a later one only adds its keys. -/
def register (g : LiveGroup σ ι ρ β γ χ) (created : Bool) (snap : LiveSnapshot σ ι ρ β χ) :
    LiveGroup σ ι ρ β γ χ :=
  { g with
    members := insert g.nextId (pushFrames .new (.comment "lattice live" :: snapshotFrames snap)) g.members
    nextId := g.nextId + 1
    last := if created then emissionOf encode snap else { g.last with keys := g.last.keys ++ snap.keys } }

variable [DecidableEq χ]

/-- One of the events purges a key that the group has registered. -/
def hits (g : LiveGroup σ ι ρ β γ χ) (evs : List (Nat × List χ)) : Bool :=
  evs.any fun e => e.2.any fun k => k ∈ g.last.keys

/-- The worker's turn: at most one execution for the batch. -/
def process (g : LiveGroup σ ι ρ β γ χ) (evs : List (Nat × List χ)) (result : Execution σ ι ρ β χ) :
    LiveGroup σ ι ρ β γ χ :=
  let cursor := (evs.map Prod.fst).foldl max 0
  if hits g evs then
    match result with
    | .refused => { g with members := g.members.map fun e => (e.1, { e.2 with closed := true }) }
    | .contended => g
    | .snapshot snap =>
      { g with
        last := emissionOf encode snap
        members := g.members.map fun e => (e.1, pushFrames e.2 (deltaFrames encode cursor g.last snap)) }
  else g

/-- A subscriber is gone; the group without subscribers is retired. -/
def unregister (g : LiveGroup σ ι ρ β γ χ) (sid : Nat) : LiveGroup σ ι ρ β γ χ :=
  let members := erase sid g.members
  { g with members := members, stop := g.stop || (lookup sid g.members).isSome && members.isEmpty }

/-! ## Steps -/

inductive Event (σ ι ρ β χ : Type) where
  | publish (cursor : Nat) (keys : List χ)
  | subscribe (snap : LiveSnapshot σ ι ρ β χ)
  | drain
  | process (result : Execution σ ι ρ β χ)
  | pop (sid : Nat)
  | ping (sid : Nat)
  | reauth (sid : Nat)
  | close (sid : Nat)
  | unregister (sid : Nat)

def LiveGroup.alter (g : LiveGroup σ ι ρ β γ χ) (sid : Nat) (f : Subscriber σ ι ρ β → Subscriber σ ι ρ β) :
    LiveGroup σ ι ρ β γ χ :=
  { g with members := adjust f sid g.members }

def step (g : LiveGroup σ ι ρ β γ χ) : Event σ ι ρ β χ → Option (LiveGroup σ ι ρ β γ χ)
  | .publish cursor keys => some { g with bus := g.bus ++ [(cursor, keys)] }
  -- the first subscriber of a group is the one that has created it
  | .subscribe snap => if g.stop then none else some (register encode g (g.nextId = 1) snap)
  | .drain => if g.stop ∨ g.batch.isSome ∨ g.bus = [] then none else some { g with bus := [], batch := some g.bus }
  | .process result => g.batch.map fun evs => { process encode g evs result with batch := none }
  | .pop sid => some (g.alter sid popFrame)
  | .ping sid => some (g.alter sid (pushFrame · (.comment "ping")))
  | .reauth sid => some (g.alter sid (pushFrame · (recordFrame none none .reauth)))
  | .close sid => some (g.alter sid fun s => { s with closed := true })
  | .unregister sid => some (unregister g sid)

end Wireform.Lattice.Live
