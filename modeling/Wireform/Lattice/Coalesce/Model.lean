/-
  Coalescing of point fetches.

  A fetch joins the window of its type; a window is flushed by a thread of its own, with
  one call of the loader for all its keys.  The windows and the fetches are numbered in
  the order they were made, and the threads take their steps in any order.

  * `enqueue`: the fetch's part, `tryJoin`, `install`, `fork` and `awaitSlot`;
  * `runFlush`: the flusher's part, from the closing of the window to the distribution;
  * `flushNow`, and the timer that ends the time of a window;
  * `step`: any of these.

  Besides what the source stores, the state has the calls of the loader and a clock that
  counts the steps: they are never read.
-/
import Wireform.Filing
import Wireform.Transition

namespace Wireform.Lattice.Coalesce

open AssocMap

variable {θ κ ν ε ℓ : Type}

/-- What a call of the loader ends with: the rows by key, or what it throws. -/
abbrev Outcome (κ ν ε : Type) := Except ε (AssocMap κ ν)

/-- One key of a window: every fetch that joined it awaits the same result. -/
structure KeySlot (ν ε : Type) where
  result : Option (Except ε (Option ν))
  /-- When they joined, the latest first. -/
  joins : List Nat

/-- Where the flusher of a window is. -/
inductive Flusher (κ ν ε : Type) where
  /-- The fetch that made the window has yet to fork it. -/
  | unforked (creator : Nat)
  /-- For the window to be closed, or the deadline. -/
  | waiting (expired : Bool)
  | detached
  | read (keys : List κ) (flushedAt : Nat)
  /-- Inside the loader. -/
  | calling (keys : List κ) (flushedAt : Nat)
  | returned (keys : List κ) (flushedAt : Nat) (outcome : Outcome κ ν ε)
  | counted (keys : List κ) (flushedAt : Nat) (outcome : Outcome κ ν ε) (joins : List Nat)
  | finished (outcome : Outcome κ ν ε)

structure Window (θ κ ν ε ℓ : Type) where
  ty : θ
  slots : AssocMap κ (KeySlot ν ε)
  closed : Bool
  done : Bool
  loader : ℓ
  flusher : Flusher κ ν ε

inductive Progress (ν ε : Type) where
  | start
  /-- No window was open. -/
  | creating (now : Nat)
  /-- Its own window is installed, the flusher is not forked. -/
  | installed (w joinedAt : Nat)
  | waiting (w joinedAt : Nat)
  | answered (w joinedAt : Nat) (answer : Except ε (Option ν))

structure Fetch (θ κ ν ε ℓ : Type) where
  ty : θ
  key : κ
  loader : ℓ
  progress : Progress ν ε

structure LoaderCall (κ ℓ : Type) where
  window : Nat
  loader : ℓ
  keys : List κ
  startedAt : Nat
deriving DecidableEq

structure FlushStat (θ : Type) where
  ty : θ
  batch : Nat
  waiters : Nat
  waitMicros : List Nat

structure Config where
  maxBatch : Int

structure State (θ κ ν ε ℓ : Type) where
  /-- The open window of each type. -/
  windows : AssocMap θ Nat
  made : List (Window θ κ ν ε ℓ)
  fetches : List (Fetch θ κ ν ε ℓ)
  calls : List (LoaderCall κ ℓ)
  flushLog : List (FlushStat θ)
  clock : Nat

def State.new : State θ κ ν ε ℓ := ⟨[], [], [], [], [], 0⟩

/-- The row of a key. -/
def pick [LinearOrder κ] (outcome : Outcome κ ν ε) (k : κ) : Except ε (Option ν) :=
  match outcome with
  | .error e => .error e
  | .ok rows => .ok (lookup k rows)

variable [LinearOrder θ] [LinearOrder κ]

def State.setWindow (s : State θ κ ν ε ℓ) (w : Nat) (win : Window θ κ ν ε ℓ) : State θ κ ν ε ℓ :=
  { s with made := s.made.set w win }

def State.move (s : State θ κ ν ε ℓ) (i : Nat) (f : Fetch θ κ ν ε ℓ) (p : Progress ν ε) : State θ κ ν ε ℓ :=
  { s with fetches := s.fetches.set i { f with progress := p } }

/-! ## Joining -/

/-- A one-key batch cap closes the window before it opens for joining. -/
def Config.solo (cfg : Config) : Bool := cfg.maxBatch ≤ 1

/-- A fetch that joins a window shares the slot of its key, or adds one. -/
def joinSlots (key : κ) (now : Nat) (slots : AssocMap κ (KeySlot ν ε)) : AssocMap κ (KeySlot ν ε) :=
  match lookup key slots with
  | some ks => insert key { ks with joins := now :: ks.joins } slots
  | none => insert key ⟨none, [now]⟩ slots

/-- The open window of a type. -/
def State.openWindow (s : State θ κ ν ε ℓ) (ty : θ) : Option (Nat × Window θ κ ν ε ℓ) :=
  (lookup ty s.windows).bind fun w => (s.made[w]?).map fun win => (w, win)

/-- Close the open window of a type. -/
def State.close (s : State θ κ ν ε ℓ) (ty : θ) (w : Nat) (win : Window θ κ ν ε ℓ) : State θ κ ν ε ℓ :=
  { s.setWindow w { win with closed := true } with windows := erase ty s.windows }

def tryJoin (cfg : Config) (s : State θ κ ν ε ℓ) (ty : θ) (key : κ) (now : Nat) :
    Option (Nat × State θ κ ν ε ℓ) :=
  (s.openWindow ty).map fun (w, win) =>
    let win' := { win with slots := joinSlots key now win.slots }
    -- reaching the batch cap closes the window
    if (lookup key win.slots).isNone ∧ max 1 cfg.maxBatch ≤ win'.slots.length then (w, s.close ty w win')
    else (w, s.setWindow w win')

def newWindow (cfg : Config) (creator : Nat) (f : Fetch θ κ ν ε ℓ) (now : Nat) : Window θ κ ν ε ℓ :=
  ⟨f.ty, [(f.key, ⟨none, [now]⟩)], cfg.solo, false, f.loader, .unforked creator⟩

/-- A window with one key is installed, unless another fetch was faster. -/
def install (cfg : Config) (s : State θ κ ν ε ℓ) (creator : Nat) (f : Fetch θ κ ν ε ℓ) (now : Nat) :
    Option (State θ κ ν ε ℓ) :=
  match lookup f.ty s.windows with
  | some _ => none
  | none =>
    some { s with
      windows := if cfg.solo then s.windows else insert f.ty s.made.length s.windows
      made := s.made ++ [newWindow cfg creator f now] }

/-- The result of a slot. -/
def State.result (s : State θ κ ν ε ℓ) (w : Nat) (key : κ) : Option (Except ε (Option ν)) :=
  (s.made[w]?).bind fun win => (lookup key win.slots).bind fun ks => ks.result

/-- The next step of a fetch, at time `now`. -/
def enqueue (cfg : Config) (s : State θ κ ν ε ℓ) (i : Nat) (f : Fetch θ κ ν ε ℓ) (now : Nat) :
    Option (State θ κ ν ε ℓ) :=
  match f.progress with
  | .start =>
    match tryJoin cfg s f.ty f.key now with
    | some (w, s') => some (s'.move i f (.waiting w s.clock))
    | none => some (s.move i f (.creating now))
  | .creating t =>
    match install cfg s i f t with
    | some s' => some (s'.move i f (.installed s.made.length s.clock))
    | none => some (s.move i f .start)
  | .installed w joinedAt =>
    (s.made[w]?).map fun win =>
      (s.setWindow w { win with flusher := .waiting cfg.solo }).move i f (.waiting w joinedAt)
  | .waiting w joinedAt => (s.result w f.key).map fun r => s.move i f (.answered w joinedAt r)
  | .answered .. => none

/-! ## Flushing -/

/-- The results of the keys that were loaded. -/
def distribute (keys : List κ) (outcome : Outcome κ ν ε) (slots : AssocMap κ (KeySlot ν ε)) :
    AssocMap κ (KeySlot ν ε) :=
  slots.map fun e => if keys.contains e.1 then (e.1, { e.2 with result := some (pick outcome e.1) }) else e

def flushLogBound : Nat := 1024

/-- The next step of the flusher of a window, at time `now`; `loaded` is the outcome of the
    loader, for the step that awaits it. -/
def runFlush (s : State θ κ ν ε ℓ) (w : Nat) (win : Window θ κ ν ε ℓ) (now : Nat)
    (loaded : Option (Outcome κ ν ε)) : Option (State θ κ ν ε ℓ) :=
  match win.flusher with
  | .unforked _ => none
  | .waiting expired =>
    if win.closed then some (s.setWindow w { win with flusher := .detached })
    else if expired then
      some { s.setWindow w { win with closed := true, flusher := .detached } with
        -- a window that has taken its place stays
        windows := if lookup win.ty s.windows = some w then erase win.ty s.windows else s.windows }
    else none
  | .detached => some (s.setWindow w { win with flusher := .read (win.slots.map Prod.fst) now })
  | .read keys flushedAt =>
    some { s.setWindow w { win with flusher := .calling keys flushedAt } with
      calls := s.calls ++ [⟨w, win.loader, keys, s.clock⟩] }
  | .calling keys flushedAt =>
    loaded.map fun outcome => s.setWindow w { win with flusher := .returned keys flushedAt outcome }
  | .returned keys flushedAt outcome =>
    some (s.setWindow w
      { win with flusher := .counted keys flushedAt outcome (win.slots.flatMap fun e => e.2.joins) })
  | .counted keys flushedAt outcome joins =>
    -- a result that is there already, or the window's end, would block the flusher
    if (win.slots.any fun e => keys.contains e.1 && e.2.result.isSome) || win.done then none
    else
      let waits := joins.map fun j => (flushedAt - min j flushedAt) / 1000
      let stat : FlushStat θ := ⟨win.ty, keys.length, waits.length, waits⟩
      some { s.setWindow w
          { win with slots := distribute keys outcome win.slots, done := true, flusher := .finished outcome } with
        flushLog := (s.flushLog ++ [stat]).drop (s.flushLog.length + 1 - flushLogBound) }
  | .finished _ => none

/-- The first part of `flushNow`; what it awaits afterwards is the window's `done`. -/
def flushNow (s : State θ κ ν ε ℓ) (ty : θ) : State θ κ ν ε ℓ :=
  match s.openWindow ty with
  | none => s
  | some (w, win) => s.close ty w win

/-- The delay that a window has registered is over. -/
def expire (s : State θ κ ν ε ℓ) (w : Nat) (win : Window θ κ ν ε ℓ) : Option (State θ κ ν ε ℓ) :=
  match win.flusher with
  | .waiting false => some (s.setWindow w { win with flusher := .waiting true })
  | _ => none

/-! ## Steps -/

inductive Event (θ κ ν ε ℓ : Type) where
  | fetch (ty : θ) (key : κ) (loader : ℓ)
  | flushNow (ty : θ)
  | enqueue (i now : Nat)
  | expire (w : Nat)
  | runFlush (w now : Nat) (loaded : Option (Outcome κ ν ε))

def State.tick (s : State θ κ ν ε ℓ) : State θ κ ν ε ℓ := { s with clock := s.clock + 1 }

def step (cfg : Config) (s : State θ κ ν ε ℓ) : Event θ κ ν ε ℓ → Option (State θ κ ν ε ℓ)
  | .fetch ty key loader => some (State.tick { s with fetches := s.fetches ++ [⟨ty, key, loader, .start⟩] })
  | .flushNow ty => some (flushNow s ty).tick
  | .enqueue i now => (s.fetches[i]?).bind fun f => (enqueue cfg s i f now).map State.tick
  | .expire w => (s.made[w]?).bind fun win => (expire s w win).map State.tick
  | .runFlush w now loaded => (s.made[w]?).bind fun win => (runFlush s w win now loaded).map State.tick

end Wireform.Lattice.Coalesce
