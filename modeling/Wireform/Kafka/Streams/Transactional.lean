/-
  The transactional buffer in front of a state store
  (`Kafka.Streams.State.Transactional`).

  Writes go to a buffer, with one operation for a key; reads see the buffer first; a
  commit replays the buffer onto the store, and an abort drops it.

  * `KeyValueStore`: the operations of a store, over any type of states; `mapStore`: the
    ordered finite map itself;
  * `Behaves`: a store whose every operation is that of the map it stands for;
  * `txnStore`, `txnCommit`, `txnAbort`: the wrapper;
  * `orderedStore`, `descendingMap`: a store and a buffer that are ordered maps;
  * `txnStore_behaves`: over a store that behaves the wrapper behaves too, and stands for
    the map with the buffer written to it;
  * `txn_faithful`: over any sequence of operations, commits and aborts it is a copy of
    the map beside the map of the last commit.

  The buffer is a hash map of a library: it is any type with the laws of `StmMap.Lawful`,
  whose entries come in any order.
-/
import Mathlib.Data.List.TakeWhile
import Wireform.MachineInt
import Wireform.Transducer
import Wireform.Writes

namespace Wireform.Kafka.Streams.Transactional

variable {σ τ K V : Type}

/-! ## Stores -/

/-- An iterator over the entries that are left. -/
abbrev KeyValueIterator (K V : Type) := List (K × V)

structure KeyValueStore (σ K V : Type) where
  kvsGet : σ → K → Option V
  kvsPut : σ → K → V → σ
  kvsPutIfAbsent : σ → K → V → σ × Option V
  kvsDelete : σ → K → σ × Option V
  kvsRange : σ → K → K → KeyValueIterator K V
  kvsAll : σ → KeyValueIterator K V
  kvsReverseRange : σ → K → K → KeyValueIterator K V
  kvsReverseAll : σ → KeyValueIterator K V
  kvsApproxEntries : σ → Int

inductive StoreOp (K V : Type) where
  | get (k : K)
  | put (k : K) (v : V)
  | putIfAbsent (k : K) (v : V)
  | delete (k : K)
  | range (lo hi : K)
  | all
  | reverseRange (lo hi : K)
  | reverseAll

/-- What an operation returns: an optional value, or entries. -/
inductive Result (K V : Type) where
  | value (v : Option V)
  | entries (es : List (K × V))
  deriving DecidableEq

/-- Takes everything from an iterator, in its order. -/
def drainIter (it : KeyValueIterator K V) : List (K × V) := go [] it
where
  go (acc : List (K × V)) : KeyValueIterator K V → List (K × V)
    | [] => acc.reverse
    | kv :: it => go (kv :: acc) it

theorem drainIter_eq (it : KeyValueIterator K V) : drainIter it = it := by
  have hgo : ∀ acc, drainIter.go acc it = acc.reverse ++ it := by
    induction it with
    | nil => exact fun acc => (List.append_nil _).symm
    | cons kv it ih =>
      intro acc
      rw [drainIter.go, ih, List.reverse_cons, List.append_assoc]
      rfl
  exact hgo []

namespace KeyValueStore

/-- One operation on a store; what an iterator returns is taken from it. -/
def step (store : KeyValueStore σ K V) (s : σ) : StoreOp K V → σ × Result K V
  | .get k => (s, .value (store.kvsGet s k))
  | .put k v => (store.kvsPut s k v, .value none)
  | .putIfAbsent k v => ((store.kvsPutIfAbsent s k v).1, .value (store.kvsPutIfAbsent s k v).2)
  | .delete k => ((store.kvsDelete s k).1, .value (store.kvsDelete s k).2)
  | .range lo hi => (s, .entries (drainIter (store.kvsRange s lo hi)))
  | .all => (s, .entries (drainIter (store.kvsAll s)))
  | .reverseRange lo hi => (s, .entries (drainIter (store.kvsReverseRange s lo hi)))
  | .reverseAll => (s, .entries (drainIter (store.kvsReverseAll s)))

end KeyValueStore

section
variable [LinearOrder K]

/-- The ordered finite map as a store. -/
def mapStore (K V : Type) [LinearOrder K] : KeyValueStore (AssocMap K V) K V where
  kvsGet m k := AssocMap.lookup k m
  kvsPut m k v := AssocMap.insert k v m
  kvsPutIfAbsent m k v :=
    match AssocMap.lookup k m with
    | some old => (m, some old)
    | none => (AssocMap.insert k v m, none)
  kvsDelete m k := (AssocMap.erase k m, AssocMap.lookup k m)
  kvsRange m lo hi := AssocMap.between lo hi m
  kvsAll m := m
  kvsReverseRange m lo hi := (AssocMap.between lo hi m).reverse
  kvsReverseAll m := m.reverse
  kvsApproxEntries m := wrap m.length

/-- The store does what the map it stands for does. -/
structure Behaves (store : KeyValueStore σ K V) (view : σ → AssocMap K V) : Prop where
  ascending : ∀ s, (view s).Ascending
  step_state : ∀ s op, view (store.step s op).1 = ((mapStore K V).step (view s) op).1
  step_result : ∀ s op, (store.step s op).2 = ((mapStore K V).step (view s) op).2

/-- The count of the store is exact. -/
def CountsExactly (store : KeyValueStore σ K V) (view : σ → AssocMap K V) : Prop :=
  ∀ s, store.kvsApproxEntries s = wrap (view s).length

theorem mapStore_ascending {m : AssocMap K V} (h : m.Ascending) (op : StoreOp K V) :
    ((mapStore K V).step m op).1.Ascending := by
  cases op with
  | put k v => exact h.insert k v
  | delete k => exact h.erase k
  | putIfAbsent k v =>
    unfold KeyValueStore.step mapStore
    dsimp only
    split
    · exact h
    · exact h.insert k v
  | _ => exact h

section
variable {store : KeyValueStore σ K V} {view : σ → AssocMap K V}

theorem Behaves.kvsGet (h : Behaves store view) (s : σ) (k : K) :
    store.kvsGet s k = AssocMap.lookup k (view s) := Result.value.inj (h.step_result s (.get k))

theorem Behaves.kvsRange (h : Behaves store view) (s : σ) (lo hi : K) :
    drainIter (store.kvsRange s lo hi) = AssocMap.between lo hi (view s) :=
  (Result.entries.inj (h.step_result s (.range lo hi))).trans (drainIter_eq _)

theorem Behaves.kvsAll (h : Behaves store view) (s : σ) : drainIter (store.kvsAll s) = view s :=
  (Result.entries.inj (h.step_result s .all)).trans (drainIter_eq _)

theorem Behaves.kvsPut (h : Behaves store view) (s : σ) (k : K) (v : V) :
    view (store.kvsPut s k v) = AssocMap.insert k v (view s) := h.step_state s (.put k v)

theorem Behaves.kvsDelete (h : Behaves store view) (s : σ) (k : K) :
    view (store.kvsDelete s k).1 = AssocMap.erase k (view s) := h.step_state s (.delete k)

end

end

/-! ## The buffer -/

/-- A deferred operation. -/
inductive BufferedOp (V : Type) where
  | bufPut (v : V)
  | bufDelete

/-- What is at the key after the operation. -/
def BufferedOp.value : BufferedOp V → Option V
  | bufPut v => some v
  | bufDelete => none

/-- The operations of a hash map with entries `B`. -/
structure StmMap (τ K B : Type) where
  empty : τ
  lookup : K → τ → Option B
  insert : B → K → τ → τ
  delete : K → τ → τ
  /-- The entries, in some order. -/
  listT : τ → List (K × B)

structure StmMap.Lawful [DecidableEq K] {B : Type} (map : StmMap τ K B) : Prop where
  lookup_empty : ∀ k, map.lookup k map.empty = none
  lookup_insert : ∀ b k k' t, map.lookup k' (map.insert b k t) = if k' = k then some b else map.lookup k' t
  lookup_delete : ∀ k k' t, map.lookup k' (map.delete k t) = if k' = k then none else map.lookup k' t
  mem_listT : ∀ k b t, (k, b) ∈ map.listT t ↔ map.lookup k t = some b
  nodup_listT : ∀ t, ((map.listT t).map Prod.fst).Nodup

/-- A store and its buffer. -/
structure TransactionalStore (σ τ : Type) where
  tsUnderlying : σ
  tsBuffer : τ
  deriving DecidableEq

section
variable [LinearOrder K] (store : KeyValueStore σ K V) (map : StmMap τ K (BufferedOp V))

def newTransactionalStore (kvs : σ) : TransactionalStore σ τ := ⟨kvs, map.empty⟩

def applyOp (m : AssocMap K V) : K × BufferedOp V → AssocMap K V
  | (k, .bufPut v) => AssocMap.insert k v m
  | (k, .bufDelete) => AssocMap.erase k m

/-- The buffer written onto the entries of the store, in a range if one is given. -/
def mergeBufferIntoList (buf : τ) (mRange : Option (K × K)) (underlying : List (K × V)) : List (K × V) :=
  let bufPairs := map.listT buf
  let filt := match mRange with
    | none => bufPairs
    | some (lo, hi) => bufPairs.filter fun e => decide (lo ≤ e.1 ∧ e.1 ≤ hi)
  let merged := filt.foldl applyOp (AssocMap.fromList underlying)
  match mRange with
  | none => merged
  | some (lo, hi) => (merged.dropWhile fun e => decide (e.1 < lo)).takeWhile fun e => decide (e.1 ≤ hi)

/-- A put of a new key adds one entry, a delete of an old key takes one away. -/
def foldDelta (s : σ) : List (K × BufferedOp V) → Int → Int
  | [], acc => acc
  | (k, op) :: rest, acc =>
    let d := match op, store.kvsGet s k with
      | .bufPut _, none => 1
      | .bufPut _, some _ => 0
      | .bufDelete, none => 0
      | .bufDelete, some _ => -1
    foldDelta s rest (addInt acc d)

def approxEntriesWithBuffer (ts : TransactionalStore σ τ) : Int :=
  addInt (store.kvsApproxEntries ts.tsUnderlying) (foldDelta store ts.tsUnderlying (map.listT ts.tsBuffer) 0)

/-- A read: the buffer wins. -/
def txnGet (ts : TransactionalStore σ τ) (k : K) : Option V :=
  match map.lookup k ts.tsBuffer with
  | some .bufDelete => none
  | some (.bufPut v) => some v
  | none => store.kvsGet ts.tsUnderlying k

/-- The wrapper as a store. -/
def txnStore : KeyValueStore (TransactionalStore σ τ) K V where
  kvsGet := txnGet store map
  kvsPut ts k v := { ts with tsBuffer := map.insert (.bufPut v) k ts.tsBuffer }
  kvsPutIfAbsent ts k v :=
    match txnGet store map ts k with
    | some old => (ts, some old)
    | none => ({ ts with tsBuffer := map.insert (.bufPut v) k ts.tsBuffer }, none)
  kvsDelete ts k := ({ ts with tsBuffer := map.insert .bufDelete k ts.tsBuffer }, txnGet store map ts k)
  kvsRange ts lo hi :=
    mergeBufferIntoList map ts.tsBuffer (some (lo, hi)) (drainIter (store.kvsRange ts.tsUnderlying lo hi))
  kvsAll ts := mergeBufferIntoList map ts.tsBuffer none (drainIter (store.kvsAll ts.tsUnderlying))
  kvsReverseRange ts lo hi :=
    (mergeBufferIntoList map ts.tsBuffer (some (lo, hi)) (drainIter (store.kvsRange ts.tsUnderlying lo hi))).reverse
  kvsReverseAll ts := (mergeBufferIntoList map ts.tsBuffer none (drainIter (store.kvsAll ts.tsUnderlying))).reverse
  kvsApproxEntries := approxEntriesWithBuffer store map

def resetBuffer (buf : τ) : τ := (map.listT buf).foldl (fun buf e => map.delete e.1 buf) buf

/-- Replays the buffer onto the store. -/
def txnCommit (ts : TransactionalStore σ τ) : TransactionalStore σ τ where
  tsUnderlying := (map.listT ts.tsBuffer).foldl (fun s e => match e with
    | (k, .bufPut v) => store.kvsPut s k v
    | (k, .bufDelete) => (store.kvsDelete s k).1) ts.tsUnderlying
  tsBuffer := resetBuffer map ts.tsBuffer

def txnAbort (ts : TransactionalStore σ τ) : TransactionalStore σ τ :=
  { ts with tsBuffer := resetBuffer map ts.tsBuffer }

end

/-! ## Stores and buffers that are maps -/

section
variable [LinearOrder K]

abbrev OrderedMap (K V : Type) [LinearOrder K] := { m : AssocMap K V // m.Ascending }

/-- The operations of `mapStore`, on maps in order. -/
def orderedStore (K V : Type) [LinearOrder K] : KeyValueStore (OrderedMap K V) K V where
  kvsGet m k := (mapStore K V).kvsGet m.1 k
  kvsPut m k v := ⟨(mapStore K V).kvsPut m.1 k v, mapStore_ascending m.2 (.put k v)⟩
  kvsPutIfAbsent m k v :=
    (⟨((mapStore K V).kvsPutIfAbsent m.1 k v).1, mapStore_ascending m.2 (.putIfAbsent k v)⟩,
      ((mapStore K V).kvsPutIfAbsent m.1 k v).2)
  kvsDelete m k :=
    (⟨((mapStore K V).kvsDelete m.1 k).1, mapStore_ascending m.2 (.delete k)⟩, ((mapStore K V).kvsDelete m.1 k).2)
  kvsRange m lo hi := (mapStore K V).kvsRange m.1 lo hi
  kvsAll m := (mapStore K V).kvsAll m.1
  kvsReverseRange m lo hi := (mapStore K V).kvsReverseRange m.1 lo hi
  kvsReverseAll m := (mapStore K V).kvsReverseAll m.1
  kvsApproxEntries m := (mapStore K V).kvsApproxEntries m.1

theorem orderedStore_behaves : Behaves (orderedStore K V) Subtype.val where
  ascending m := m.2
  step_state m op := by
    cases op with
    | _ => rfl
  step_result m op := by
    cases op with
    | _ => rfl

/-- A buffer that lists its last key first. -/
def descendingMap (K B : Type) [LinearOrder K] : StmMap (OrderedMap K B) K B where
  empty := ⟨[], List.Pairwise.nil⟩
  lookup k m := AssocMap.lookup k m.1
  insert b k m := ⟨AssocMap.insert k b m.1, m.2.insert k b⟩
  delete k m := ⟨AssocMap.erase k m.1, m.2.erase k⟩
  listT m := m.1.reverse

theorem descendingMap_lawful {B : Type} : (descendingMap K B).Lawful where
  lookup_empty _ := rfl
  lookup_insert b k k' m := AssocMap.lookup_insert k k' b m.1
  lookup_delete k k' m := AssocMap.lookup_erase k k' m.1
  mem_listT k b m := List.mem_reverse.trans (m.2.mem_iff k b)
  nodup_listT m := by
    show (m.1.reverse.map Prod.fst).Nodup
    rw [List.map_reverse]
    exact List.nodup_reverse.2 m.2.nodup_keys

end

/-! ## What the wrapper stands for -/

section
variable [LinearOrder K] {store : KeyValueStore σ K V} {map : StmMap τ K (BufferedOp V)} {view : σ → AssocMap K V}
  {ts : TransactionalStore σ τ}

/-- The writes of a buffer. -/
def writes (map : StmMap τ K (BufferedOp V)) (buf : τ) : List (K × Option V) :=
  (map.listT buf).map fun e => (e.1, e.2.value)

/-- The map of the store, with the buffer written to it. -/
def pending (map : StmMap τ K (BufferedOp V)) (view : σ → AssocMap K V) (ts : TransactionalStore σ τ) :
    AssocMap K V := AssocMap.writeAll (writes map ts.tsBuffer) (view ts.tsUnderlying)

omit [LinearOrder K] in
theorem keys_writes (buf : τ) : (writes map buf).map Prod.fst = (map.listT buf).map Prod.fst := by
  rw [writes, List.map_map]
  rfl

theorem mem_keys_writes (hmap : map.Lawful) {buf : τ} {k : K} :
    k ∈ (writes map buf).map Prod.fst ↔ (map.lookup k buf).isSome := by
  rw [keys_writes, List.mem_map, Option.isSome_iff_exists]
  constructor
  · rintro ⟨⟨k, b⟩, hmem, rfl⟩
    exact ⟨b, (hmap.mem_listT k b buf).1 hmem⟩
  · rintro ⟨b, hb⟩
    exact ⟨(k, b), (hmap.mem_listT k b buf).2 hb, rfl⟩

theorem nodup_writes (hmap : map.Lawful) (buf : τ) : ((writes map buf).map Prod.fst).Nodup := by
  rw [keys_writes]
  exact hmap.nodup_listT buf

/-- What the buffer has for a key counts, or else what the map has. -/
theorem lookup_writes (hmap : map.Lawful) (buf : τ) (m : AssocMap K V) (k : K) :
    AssocMap.lookup k (AssocMap.writeAll (writes map buf) m) =
      (map.lookup k buf).elim (AssocMap.lookup k m) BufferedOp.value := by
  cases hb : map.lookup k buf with
  | none =>
    refine AssocMap.lookup_writeAll_of_not_mem fun hmem => ?_
    rw [mem_keys_writes hmap, hb] at hmem
    cases hmem
  | some op =>
    exact AssocMap.lookup_writeAll_of_mem (nodup_writes hmap buf)
      (List.mem_map.2 ⟨(k, op), (hmap.mem_listT k op buf).2 hb, rfl⟩)

theorem foldl_applyOp (l : List (K × BufferedOp V)) (m : AssocMap K V) :
    l.foldl applyOp m = AssocMap.writeAll (l.map fun e => (e.1, e.2.value)) m := by
  rw [AssocMap.writeAll, List.foldl_map]
  refine List.foldl_ext _ _ _ fun m e _ => ?_
  obtain ⟨k, op⟩ := e
  cases op with
  | bufPut v => rfl
  | bufDelete => rfl

/-- **The merge of everything** is the map with the buffer written to it. -/
theorem mergeBufferIntoList_all {m : AssocMap K V} (hm : m.Ascending) (buf : τ) :
    mergeBufferIntoList map buf none m = AssocMap.writeAll (writes map buf) m := by
  show (map.listT buf).foldl applyOp (AssocMap.fromList m) = _
  rw [foldl_applyOp, hm.fromList]
  rfl

/-- **The merge of a range** is its part of that map. -/
theorem mergeBufferIntoList_range (hmap : map.Lawful) {m : AssocMap K V} (hm : m.Ascending) (buf : τ) (lo hi : K) :
    mergeBufferIntoList map buf (some (lo, hi)) (AssocMap.between lo hi m) =
      AssocMap.between lo hi (AssocMap.writeAll (writes map buf) m) := by
  -- the writes in the range
  obtain ⟨ws, hws⟩ : ∃ ws, ws = (writes map buf).filter fun e => decide (lo ≤ e.1 ∧ e.1 ≤ hi) := ⟨_, rfl⟩
  have hlist : (((map.listT buf).filter fun e => decide (lo ≤ e.1 ∧ e.1 ≤ hi)).map fun e => (e.1, e.2.value)) = ws := by
    rw [hws, writes, List.filter_map]
    rfl
  have hbase : (AssocMap.between lo hi m).Ascending := hm.between lo hi
  obtain ⟨merged, hmerged⟩ : ∃ merged, merged = AssocMap.writeAll ws (AssocMap.between lo hi m) := ⟨_, rfl⟩
  have hasc : merged.Ascending := by
    rw [hmerged]
    exact hbase.writeAll ws
  have hmem : ∀ {k w}, (k, w) ∈ ws ↔ (k, w) ∈ writes map buf ∧ (lo ≤ k ∧ k ≤ hi) := by
    intro k w
    rw [hws, List.mem_filter, decide_eq_true_eq]
  have hnodup : (ws.map Prod.fst).Nodup := by
    rw [hws]
    exact (nodup_writes hmap buf).sublist (List.filter_sublist.map _)
  have hlookup : ∀ k, AssocMap.lookup k merged =
      if lo ≤ k ∧ k ≤ hi then AssocMap.lookup k (AssocMap.writeAll (writes map buf) m) else none := by
    intro k
    rw [hmerged]
    by_cases hk : k ∈ ws.map Prod.fst
    · obtain ⟨⟨k, w⟩, hw, rfl⟩ := List.mem_map.1 hk
      obtain ⟨hw', hrange⟩ := hmem.1 hw
      rw [AssocMap.lookup_writeAll_of_mem hnodup hw, if_pos hrange,
        AssocMap.lookup_writeAll_of_mem (nodup_writes hmap buf) hw']
    · rw [AssocMap.lookup_writeAll_of_not_mem hk, AssocMap.lookup_between]
      split_ifs with hrange
      · refine (AssocMap.lookup_writeAll_of_not_mem fun hk' => hk ?_).symm
        obtain ⟨⟨k, w⟩, hw, rfl⟩ := List.mem_map.1 hk'
        exact List.mem_map_of_mem (hmem.2 ⟨hw, hrange⟩)
      · rfl
  have hrange : ∀ e ∈ merged, lo ≤ e.1 ∧ e.1 ≤ hi := by
    rintro ⟨k, v⟩ he
    have hl := (hasc.mem_iff k v).1 he
    rw [hlookup] at hl
    by_contra hno
    rw [if_neg hno] at hl
    cases hl
  have hcut : (merged.dropWhile fun e => decide (e.1 < lo)).takeWhile (fun e => decide (e.1 ≤ hi)) = merged := by
    have hdrop : merged.dropWhile (fun e => decide (e.1 < lo)) = merged := by
      cases merged with
      | nil => rfl
      | cons e rest =>
        rw [List.dropWhile_cons_of_neg]
        simpa using (hrange e List.mem_cons_self).1
    rw [hdrop]
    exact List.takeWhile_eq_self_iff.2 fun e he => decide_eq_true (hrange e he).2
  show (List.dropWhile _ (List.foldl applyOp (AssocMap.fromList (AssocMap.between lo hi m)) _)).takeWhile _ = _
  rw [foldl_applyOp, hlist, hbase.fromList, ← hmerged, hcut]
  refine hasc.ext ((hm.writeAll _).between lo hi) fun k => ?_
  rw [hlookup, AssocMap.lookup_between]

/-- A read through the wrapper. -/
theorem txnGet_eq (hmap : map.Lawful) (hstore : Behaves store view) (ts : TransactionalStore σ τ) (k : K) :
    txnGet store map ts k = AssocMap.lookup k (pending map view ts) := by
  rw [pending, lookup_writes hmap, txnGet]
  cases map.lookup k ts.tsBuffer with
  | none => exact hstore.kvsGet ts.tsUnderlying k
  | some op =>
    cases op with
    | bufPut v => rfl
    | bufDelete => rfl

theorem pending_ascending (hstore : Behaves store view) (ts : TransactionalStore σ τ) :
    (pending map view ts).Ascending := (hstore.ascending _).writeAll _

/-- A buffered operation is a write to the map. -/
theorem pending_insert (hmap : map.Lawful) (hstore : Behaves store view) (k : K) (op : BufferedOp V) :
    pending map view { ts with tsBuffer := map.insert op k ts.tsBuffer } =
      AssocMap.write k op.value (pending map view ts) := by
  refine (pending_ascending hstore _).ext ((pending_ascending hstore ts).write k op.value) fun k' => ?_
  rw [AssocMap.lookup_write, pending, pending, lookup_writes hmap, lookup_writes hmap, hmap.lookup_insert]
  split_ifs
  · rfl
  · rfl

/-- **The wrapper behaves** as the map with the buffer written to it. -/
theorem txnStore_behaves (hmap : map.Lawful) (hstore : Behaves store view) :
    Behaves (txnStore store map) (pending map view) where
  ascending := pending_ascending hstore
  step_state ts op := by
    cases op with
    | put k v => exact pending_insert hmap hstore k (.bufPut v)
    | delete k => exact pending_insert hmap hstore k .bufDelete
    | putIfAbsent k v =>
      have hget := txnGet_eq hmap hstore ts k
      show pending map view (match txnGet store map ts k with
        | some old => (ts, some old)
        | none => ({ ts with tsBuffer := map.insert (.bufPut v) k ts.tsBuffer }, none)).1 =
          (match AssocMap.lookup k (pending map view ts) with
          | some old => (pending map view ts, some old)
          | none => (AssocMap.insert k v (pending map view ts), none)).1
      rw [hget]
      cases AssocMap.lookup k (pending map view ts) with
      | none => exact pending_insert hmap hstore k (.bufPut v)
      | some old => rfl
    | _ => rfl
  step_result ts op := by
    have hall : mergeBufferIntoList map ts.tsBuffer none (drainIter (store.kvsAll ts.tsUnderlying)) =
        pending map view ts := by
      rw [hstore.kvsAll, mergeBufferIntoList_all (hstore.ascending _)]
      rfl
    have hrange : ∀ lo hi, mergeBufferIntoList map ts.tsBuffer (some (lo, hi))
        (drainIter (store.kvsRange ts.tsUnderlying lo hi)) = AssocMap.between lo hi (pending map view ts) := by
      intro lo hi
      rw [hstore.kvsRange, mergeBufferIntoList_range hmap (hstore.ascending _)]
      rfl
    cases op with
    | get k => exact congrArg Result.value (txnGet_eq hmap hstore ts k)
    | put k v => rfl
    | delete k => exact congrArg Result.value (txnGet_eq hmap hstore ts k)
    | putIfAbsent k v =>
      have hget := txnGet_eq hmap hstore ts k
      refine congrArg Result.value ?_
      show (match txnGet store map ts k with
        | some old => (ts, some old)
        | none => ({ ts with tsBuffer := map.insert (.bufPut v) k ts.tsBuffer }, none)).2 =
          (match AssocMap.lookup k (pending map view ts) with
          | some old => (pending map view ts, some old)
          | none => (AssocMap.insert k v (pending map view ts), none)).2
      rw [hget]
      cases AssocMap.lookup k (pending map view ts) with
      | none => rfl
      | some old => rfl
    | range lo hi => exact congrArg (fun es => Result.entries (drainIter es)) (hrange lo hi)
    | all => exact congrArg (fun es => Result.entries (drainIter es)) hall
    | reverseRange lo hi =>
      exact congrArg (fun es : List (K × V) => Result.entries (drainIter es.reverse)) (hrange lo hi)
    | reverseAll => exact congrArg (fun es : List (K × V) => Result.entries (drainIter es.reverse)) hall

/-! ## The count -/

theorem wrap_add_wrap (x y : Int) : wrap (x + wrap y) = wrap (x + y) := by
  unfold wrap
  omega

theorem wrap_foldDelta (hstore : Behaves store view) (s : σ) (l : List (K × BufferedOp V)) (c acc : Int) :
    wrap (c + foldDelta store s l acc) =
      wrap (c + acc + (l.map fun e => AssocMap.gain e.2.value (AssocMap.lookup e.1 (view s))).sum) := by
  induction l generalizing acc with
  | nil =>
    rw [foldDelta, List.map_nil, List.sum_nil, Int.add_zero]
  | cons e l ih =>
    obtain ⟨k, op⟩ := e
    have hd : (match op, store.kvsGet s k with
        | .bufPut _, none => (1 : Int)
        | .bufPut _, some _ => 0
        | .bufDelete, none => 0
        | .bufDelete, some _ => -1) = AssocMap.gain op.value (AssocMap.lookup k (view s)) := by
      rw [hstore.kvsGet]
      cases op with
      | bufPut v => cases AssocMap.lookup k (view s) with
        | none => rfl
        | some v' => rfl
      | bufDelete => cases AssocMap.lookup k (view s) with
        | none => rfl
        | some v' => rfl
    have hstep : foldDelta store s ((k, op) :: l) acc =
        foldDelta store s l (addInt acc (AssocMap.gain op.value (AssocMap.lookup k (view s)))) := by
      rw [← hd]
      rfl
    rw [hstep, ih, addInt, List.map_cons, List.sum_cons]
    dsimp only
    unfold wrap
    omega

/-- **The count is the one of the map** with the buffer written to it. -/
theorem approxEntries_exact (hmap : map.Lawful) (hstore : Behaves store view) (hcount : CountsExactly store view) :
    CountsExactly (txnStore store map) (pending map view) := by
  intro ts
  show addInt (store.kvsApproxEntries ts.tsUnderlying) (foldDelta store ts.tsUnderlying (map.listT ts.tsBuffer) 0) = _
  have hsum : ((writes map ts.tsBuffer).map fun e => AssocMap.gain e.2 (AssocMap.lookup e.1 (view ts.tsUnderlying))) =
      (map.listT ts.tsBuffer).map fun e => AssocMap.gain e.2.value (AssocMap.lookup e.1 (view ts.tsUnderlying)) := by
    rw [writes, List.map_map]
    rfl
  rw [addInt, wrap_foldDelta hstore, hcount, pending,
    AssocMap.length_writeAll (hstore.ascending _) (nodup_writes hmap _), hsum, Int.add_zero, Int.add_comm (wrap _),
    wrap_add_wrap, Int.add_comm]

/-! ## Commit and abort -/

theorem lookup_resetBuffer (hmap : map.Lawful) (buf : τ) (k : K) : map.lookup k (resetBuffer map buf) = none := by
  have hfold : ∀ (l : List (K × BufferedOp V)) (buf : τ), map.lookup k (l.foldl (fun buf e => map.delete e.1 buf) buf) =
      if k ∈ l.map Prod.fst then none else map.lookup k buf := by
    intro l
    induction l with
    | nil => exact fun buf => rfl
    | cons e l ih =>
      intro buf
      rw [List.foldl_cons, ih, hmap.lookup_delete]
      simp only [List.map_cons, List.mem_cons]
      by_cases h1 : k ∈ l.map Prod.fst
      · rw [if_pos h1, if_pos (Or.inr h1)]
      · by_cases h2 : k = e.1
        · rw [if_neg h1, if_pos h2, if_pos (Or.inl h2)]
        · rw [if_neg h1, if_neg h2, if_neg (by rintro (h | h); exacts [h2 h, h1 h])]
  rw [resetBuffer, hfold]
  split_ifs with h
  · rfl
  · rw [← keys_writes, mem_keys_writes hmap] at h
    exact Option.not_isSome_iff_eq_none.1 h

/-- An empty buffer writes nothing. -/
theorem pending_of_empty (hmap : map.Lawful) (hstore : Behaves store view)
    (h : ∀ k, map.lookup k ts.tsBuffer = none) : pending map view ts = view ts.tsUnderlying := by
  refine (pending_ascending hstore ts).ext (hstore.ascending _) fun k => ?_
  rw [pending, lookup_writes hmap, h]
  rfl

/-- **A commit** leaves the map with the buffer written to it in the store. -/
theorem txnCommit_view (hstore : Behaves store view) (ts : TransactionalStore σ τ) :
    view (txnCommit store map ts).tsUnderlying = pending map view ts := by
  have hfold : ∀ (l : List (K × BufferedOp V)) (s : σ), view (l.foldl (fun s e => match e with
      | (k, .bufPut v) => store.kvsPut s k v
      | (k, .bufDelete) => (store.kvsDelete s k).1) s) =
        AssocMap.writeAll (l.map fun e => (e.1, e.2.value)) (view s) := by
    intro l
    induction l with
    | nil => exact fun s => rfl
    | cons e l ih =>
      intro s
      obtain ⟨k, op⟩ := e
      rw [List.foldl_cons, ih, List.map_cons]
      cases op with
      | bufPut v =>
        dsimp only
        rw [hstore.kvsPut]
        rfl
      | bufDelete =>
        dsimp only
        rw [hstore.kvsDelete]
        rfl
  exact hfold _ _

/-! ## Transactions -/

inductive TxnOp (K V : Type) where
  | op (o : StoreOp K V)
  | commit
  | abort

def txnStep (store : KeyValueStore σ K V) (map : StmMap τ K (BufferedOp V)) (ts : TransactionalStore σ τ) :
    TxnOp K V → TransactionalStore σ τ × List (Result K V)
  | .op o => (((txnStore store map).step ts o).1, [((txnStore store map).step ts o).2])
  | .commit => (txnCommit store map ts, [])
  | .abort => (txnAbort map ts, [])

/-- The map as of the last commit, and the copy that the operations run on. -/
structure Copy (K V : Type) where
  committed : AssocMap K V
  current : AssocMap K V

def copyStep (c : Copy K V) : TxnOp K V → Copy K V × List (Result K V)
  | .op o => (⟨c.committed, ((mapStore K V).step c.current o).1⟩, [((mapStore K V).step c.current o).2])
  | .commit => (⟨c.current, c.current⟩, [])
  | .abort => (⟨c.committed, c.committed⟩, [])

/-- The store has what was committed, and the wrapper stands for the copy. -/
def Corresponds (map : StmMap τ K (BufferedOp V)) (view : σ → AssocMap K V) (ts : TransactionalStore σ τ)
    (c : Copy K V) : Prop := view ts.tsUnderlying = c.committed ∧ pending map view ts = c.current

/-- Nothing but a commit touches the store. -/
theorem txnStep_underlying (o : StoreOp K V) :
    ((txnStore store map).step ts o).1.tsUnderlying = ts.tsUnderlying := by
  cases o with
  | putIfAbsent k v =>
    show (match txnGet store map ts k with
      | some old => (ts, some old)
      | none => ({ ts with tsBuffer := map.insert (.bufPut v) k ts.tsBuffer }, none)).1.tsUnderlying = _
    split
    · rfl
    · rfl
  | _ => rfl

theorem txnStep_corresponds (hmap : map.Lawful) (hstore : Behaves store view) {c : Copy K V}
    (h : Corresponds map view ts c) (op : TxnOp K V) :
    Corresponds map view (txnStep store map ts op).1 (copyStep c op).1 ∧
      (txnStep store map ts op).2 = (copyStep c op).2 := by
  obtain ⟨hcommitted, hcurrent⟩ := h
  cases op with
  | op o =>
    have hbehaves := txnStore_behaves hmap hstore
    refine ⟨⟨?_, ?_⟩, ?_⟩
    · show view ((txnStore store map).step ts o).1.tsUnderlying = _
      rw [txnStep_underlying]
      exact hcommitted
    · exact (hbehaves.step_state ts o).trans (by rw [hcurrent]; rfl)
    · exact congrArg (fun r => [r]) ((hbehaves.step_result ts o).trans (by rw [hcurrent]))
  | commit =>
    have hview : view (txnCommit store map ts).tsUnderlying = pending map view ts := txnCommit_view hstore ts
    refine ⟨⟨hview.trans hcurrent, ?_⟩, rfl⟩
    exact (pending_of_empty hmap hstore (lookup_resetBuffer hmap ts.tsBuffer)).trans (hview.trans hcurrent)
  | abort =>
    exact ⟨⟨hcommitted, (pending_of_empty hmap hstore (lookup_resetBuffer hmap ts.tsBuffer)).trans hcommitted⟩, rfl⟩

/-- **The wrapper is faithful**: over any operations, commits and aborts its results are
    those of the map itself, the store has the map of the last commit, only a commit
    touches the store, and an exact count stays exact. -/
theorem txn_faithful (hmap : map.Lawful) (hstore : Behaves store view) (s : σ) (ops : List (TxnOp K V)) :
    let ts := Transducer.run (txnStep store map) (newTransactionalStore map s) ops
    let c := Transducer.run copyStep ⟨view s, view s⟩ ops
    ts.2 = c.2 ∧ view ts.1.tsUnderlying = c.1.committed ∧
      ((∀ op ∈ ops, op ≠ .commit) → ts.1.tsUnderlying = s) ∧
      (CountsExactly store view → (txnStore store map).kvsApproxEntries ts.1 = wrap c.1.current.length) := by
  have hstart : Corresponds map view (newTransactionalStore map s) ⟨view s, view s⟩ :=
    ⟨rfl, pending_of_empty hmap hstore hmap.lookup_empty⟩
  obtain ⟨⟨hcommitted, hcurrent⟩, hout⟩ :=
    Transducer.run_simulates (R := Corresponds map view) (fun _ _ op h => txnStep_corresponds hmap hstore h op)
      hstart ops
  refine ⟨hout, hcommitted, fun hops => ?_, fun hcount => ?_⟩
  · have hkeep : ∀ (ops : List (TxnOp K V)) (ts : TransactionalStore σ τ), (∀ op ∈ ops, op ≠ .commit) →
        (Transducer.run (txnStep store map) ts ops).1.tsUnderlying = ts.tsUnderlying := by
      intro ops
      induction ops with
      | nil => exact fun _ _ => rfl
      | cons op ops ih =>
        intro ts h
        refine (ih _ fun op' hop' => h op' (List.mem_cons_of_mem _ hop')).trans ?_
        cases op with
        | op o => exact txnStep_underlying o
        | commit => exact absurd rfl (h _ List.mem_cons_self)
        | abort => rfl
    exact hkeep ops _ hops
  · rw [← hcurrent]
    exact approxEntries_exact hmap hstore hcount _

/-- A delete of a stored key and a new key, committed; then an overwrite, aborted. -/
theorem txn_faithful_on_maps :
    (Transducer.run (txnStep (orderedStore Int Int) (descendingMap Int (BufferedOp Int)))
      (newTransactionalStore (descendingMap Int (BufferedOp Int))
        ⟨AssocMap.fromList [(1, 10), (2, 20)], AssocMap.ascending_fromList _⟩)
      [.op (.delete 1), .op (.put 3 30), .op (.range 1 2), .op .reverseAll, .commit, .op (.put 2 5), .op .all, .abort,
        .op (.putIfAbsent 2 7)]).2 =
      [.value (some 10), .value none, .entries [(2, 20)], .entries [(3, 30), (2, 20)], .value none,
        .entries [(2, 5), (3, 30)], .value (some 20)] :=
  (txn_faithful descendingMap_lawful orderedStore_behaves
    ⟨AssocMap.fromList [(1, 10), (2, 20)], AssocMap.ascending_fromList _⟩ _).1.trans (by decide)

end

end Wireform.Kafka.Streams.Transactional
