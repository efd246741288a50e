/-
  The HPACK tables (`Network.HTTP2.HPACK.Table`).

  The dynamic table is a ring buffer: the newest entry is at `dtHead`, entries are
  evicted from the other end, and the buffer grows when it is full.  Sizes are
  lengths of byte strings in memory, so their sums do not overflow.
-/
import Wireform.Http2.Hpack.Huffman

namespace Wireform.Http2.Hpack

abbrev Header := ByteString × ByteString

/-- A string literal as a byte string. -/
def bytes (s : String) : ByteString := s.toList.map fun c => UInt8.ofNat c.toNat

/-! ## The static table -/

def staticTable : List Header := [
  (":authority", ""),
  (":method", "GET"),
  (":method", "POST"),
  (":path", "/"),
  (":path", "/index.html"),
  (":scheme", "http"),
  (":scheme", "https"),
  (":status", "200"),
  (":status", "204"),
  (":status", "206"),
  (":status", "304"),
  (":status", "400"),
  (":status", "404"),
  (":status", "500"),
  ("accept-charset", ""),
  ("accept-encoding", "gzip, deflate"),
  ("accept-language", ""),
  ("accept-ranges", ""),
  ("accept", ""),
  ("access-control-allow-origin", ""),
  ("age", ""),
  ("allow", ""),
  ("authorization", ""),
  ("cache-control", ""),
  ("content-disposition", ""),
  ("content-encoding", ""),
  ("content-language", ""),
  ("content-length", ""),
  ("content-location", ""),
  ("content-range", ""),
  ("content-type", ""),
  ("cookie", ""),
  ("date", ""),
  ("etag", ""),
  ("expect", ""),
  ("expires", ""),
  ("from", ""),
  ("host", ""),
  ("if-match", ""),
  ("if-modified-since", ""),
  ("if-none-match", ""),
  ("if-range", ""),
  ("if-unmodified-since", ""),
  ("last-modified", ""),
  ("link", ""),
  ("location", ""),
  ("max-forwards", ""),
  ("proxy-authenticate", ""),
  ("proxy-authorization", ""),
  ("range", ""),
  ("referer", ""),
  ("refresh", ""),
  ("retry-after", ""),
  ("server", ""),
  ("set-cookie", ""),
  ("strict-transport-security", ""),
  ("transfer-encoding", ""),
  ("user-agent", ""),
  ("vary", ""),
  ("via", ""),
  ("www-authenticate", "")].map fun h => (bytes h.1, bytes h.2)

def staticTableSize : Nat := staticTable.length

/-- The value of a key in `Map.fromList`: of two entries with one key the later
    counts. -/
def mapLookup {κ β : Type} [DecidableEq κ] (k : κ) (xs : List (κ × β)) : Option β :=
  (xs.reverse.find? fun e => e.1 = k).map Prod.snd

/-- The static table with its indices, from `1` on. -/
def staticEntries : List (Header × Int) := staticTable.mapIdx fun i h => (h, (i : Int) + 1)

def findStaticNameValue (hdr : Header) : Option Int := mapLookup hdr staticEntries

def findStaticName (name : ByteString) : Option Int :=
  mapLookup name (staticEntries.map fun e => (e.1.1, e.2))

def staticTableEntry (idx : Int) : Option Header :=
  if 1 ≤ idx ∧ idx ≤ staticTableSize then staticTable[(idx - 1).toNat]? else none

/-- A name of the static table is replaced by the table's own copy. -/
def internName (name : ByteString) : ByteString :=
  match findStaticName name with
  | some idx => (staticTable.getD (idx - 1).toNat ([], [])).1
  | none => name

/-! ## The dynamic table -/

structure DynamicTable where
  dtBuffer : List Header
  dtHead : Nat
  dtCount : Nat
  dtCapacity : Nat
  dtSize : Int
  dtMaxSize : Int
  deriving DecidableEq, Repr

def ringInitialCapacity : Nat := 128

def entrySize (h : Header) : Int := h.1.length + h.2.length + 32

def newDynamicTable (maxSz : Int) : DynamicTable where
  dtBuffer := List.replicate ringInitialCapacity ([], [])
  dtHead := 0
  dtCount := 0
  dtCapacity := ringInitialCapacity
  dtSize := 0
  dtMaxSize := maxSz

/-- The `i`-th newest entry. -/
def ringIndex (dt : DynamicTable) (i : Nat) : Header :=
  dt.dtBuffer.getD ((dt.dtHead + i) % dt.dtCapacity) ([], [])

/-- Evict the oldest entry. -/
def dropOldest (dt : DynamicTable) : DynamicTable :=
  { dt with
    dtCount := dt.dtCount - 1
    dtSize := dt.dtSize - entrySize
      (dt.dtBuffer.getD ((dt.dtHead + dt.dtCount - 1) % dt.dtCapacity) ([], [])) }

/-- The recursion of `evict`, over the number of entries. -/
def evict.go (targetSize : Int) : Nat → DynamicTable → DynamicTable
  | 0, dt => dt
  | n + 1, dt => if dt.dtSize ≤ targetSize then dt else go targetSize n (dropOldest dt)

/-- Evict entries until the size is at most `targetSize`. -/
def evict (dt : DynamicTable) (targetSize : Int) : DynamicTable := evict.go targetSize dt.dtCount dt

def growBuffer (dt : DynamicTable) : DynamicTable :=
  { dt with
    dtBuffer := (List.range (dt.dtCapacity * 2)).map fun i =>
      if i < dt.dtCount then dt.dtBuffer.getD ((dt.dtHead + i) % dt.dtCapacity) ([], []) else ([], [])
    dtHead := 0
    dtCapacity := dt.dtCapacity * 2 }

/-- Put an entry before the newest one. -/
def pushEntry (dt : DynamicTable) (entry : Header) : DynamicTable :=
  let newHead := (dt.dtHead + dt.dtCapacity - 1) % dt.dtCapacity
  { dt with
    dtBuffer := dt.dtBuffer.set newHead entry
    dtHead := newHead
    dtCount := dt.dtCount + 1
    dtSize := dt.dtSize + entrySize entry }

def insertEntry (dt : DynamicTable) (entry : Header) : DynamicTable :=
  if entrySize entry > dt.dtMaxSize then { dt with dtCount := 0, dtSize := 0 }
  else
    let dt := evict dt (dt.dtMaxSize - entrySize entry)
    pushEntry (if dt.dtCount ≥ dt.dtCapacity then growBuffer dt else dt) entry

def setMaxSize (dt : DynamicTable) (newMax : Int) : DynamicTable :=
  evict { dt with dtMaxSize := newMax } newMax

/-! ## Lookups -/

def lookupEntry (dt : DynamicTable) (idx : Int) : Option Header :=
  if 1 ≤ idx ∧ idx ≤ staticTableSize then staticTableEntry idx
  else
    let dynIdx := idx - staticTableSize - 1
    if 0 ≤ dynIdx ∧ dynIdx < dt.dtCount then some (ringIndex dt dynIdx.toNat) else none

/-- The loop of `lookupNameValue`, over the number of entries left. -/
def lookupNameValue.go (dt : DynamicTable) (hdr : Header) : Nat → Nat → Option Int → Option (Int × Bool)
  | 0, _, nameIdx => nameIdx.map fun ni => (ni, false)
  | n + 1, i, nameIdx =>
    let entry := ringIndex dt i
    if entry = hdr then some ((staticTableSize : Int) + i + 1, true)
    else if entry.1 = hdr.1 then go dt hdr n (i + 1) (nameIdx.or (some ((staticTableSize : Int) + i + 1)))
    else go dt hdr n (i + 1) nameIdx

/-- The index of a header, or of its name: the flag says which. -/
def lookupNameValue (dt : DynamicTable) (hdr : Header) : Option (Int × Bool) :=
  match findStaticNameValue hdr with
  | some idx => some (idx, true)
  | none => lookupNameValue.go dt hdr dt.dtCount 0 (findStaticName hdr.1)

/-! ## What lookups find -/

theorem mem_of_mapLookup {κ β : Type} [DecidableEq κ] {k : κ} {v : β} {xs : List (κ × β)}
    (h : mapLookup k xs = some v) : (k, v) ∈ xs := by
  obtain ⟨e, he, rfl⟩ := Option.map_eq_some_iff.1 h
  have hk : e.1 = k := by simpa using List.find?_some he
  rw [← hk]
  exact List.mem_reverse.1 (List.mem_of_find?_eq_some he)

/-- An index of the static table. -/
theorem mem_staticEntries {h : Header} {idx : Int} (hm : (h, idx) ∈ staticEntries) :
    1 ≤ idx ∧ idx ≤ staticTableSize ∧ staticTable[(idx - 1).toNat]? = some h := by
  obtain ⟨i, hi⟩ := List.mem_iff_getElem?.1 hm
  rw [staticEntries, List.getElem?_mapIdx] at hi
  obtain ⟨h', hget, heq⟩ := Option.map_eq_some_iff.1 hi
  cases heq
  obtain ⟨hlt, -⟩ := List.getElem?_eq_some_iff.1 hget
  have hlt' : i < staticTableSize := hlt
  exact ⟨by omega, by omega, by rw [show ((i : Int) + 1 - 1).toNat = i by omega, hget]⟩

theorem findStaticNameValue_some {hdr : Header} {idx : Int} (h : findStaticNameValue hdr = some idx)
    (dt : DynamicTable) : 1 ≤ idx ∧ lookupEntry dt idx = some hdr := by
  obtain ⟨h1, h2, h3⟩ := mem_staticEntries (mem_of_mapLookup h)
  exact ⟨h1, by rw [lookupEntry, if_pos ⟨h1, h2⟩, staticTableEntry, if_pos ⟨h1, h2⟩, h3]⟩

theorem findStaticName_some {name : ByteString} {idx : Int} (h : findStaticName name = some idx) :
    1 ≤ idx ∧ idx ≤ staticTableSize ∧ ∃ value, staticTable[(idx - 1).toNat]? = some (name, value) := by
  obtain ⟨e, he, heq⟩ := List.mem_map.1 (mem_of_mapLookup h)
  cases heq
  obtain ⟨h1, h2, h3⟩ := mem_staticEntries he
  exact ⟨h1, h2, e.1.2, h3⟩

/-- Interning a name does not change it. -/
theorem internName_eq (name : ByteString) : internName name = name := by
  unfold internName
  cases h : findStaticName name with
  | none => rfl
  | some idx =>
    obtain ⟨-, -, value, hget⟩ := findStaticName_some h
    simp only [List.getD_eq_getElem?_getD, hget, Option.getD_some]

/-- What an index found in a table says about it. -/
def Found (dt : DynamicTable) (hdr : Header) : Int × Bool → Prop
  | (idx, true) => 1 ≤ idx ∧ lookupEntry dt idx = some hdr
  | (idx, false) => 1 ≤ idx ∧ ∃ value, lookupEntry dt idx = some (hdr.1, value)

theorem lookupEntry_dynamic {dt : DynamicTable} {i : Nat} (hi : i < dt.dtCount) :
    lookupEntry dt ((staticTableSize : Int) + i + 1) = some (ringIndex dt i) := by
  have h0 : ¬ (1 ≤ (staticTableSize : Int) + i + 1 ∧ (staticTableSize : Int) + i + 1 ≤ staticTableSize) := by
    omega
  have hd : (staticTableSize : Int) + i + 1 - staticTableSize - 1 = i := by omega
  rw [lookupEntry, if_neg h0]
  simp only [hd]
  rw [if_pos ⟨by omega, by omega⟩, Int.toNat_natCast]

theorem lookupNameValue_go_found (dt : DynamicTable) (hdr : Header) : ∀ (n i : Nat) (nameIdx : Option Int),
    n + i = dt.dtCount → (∀ ni, nameIdx = some ni → Found dt hdr (ni, false)) →
    ∀ r, lookupNameValue.go dt hdr n i nameIdx = some r → Found dt hdr r
  | 0, i, nameIdx, _, hn, r, h => by
    obtain ⟨ni, hni, rfl⟩ := Option.map_eq_some_iff.1 h
    exact hn ni hni
  | n + 1, i, nameIdx, hi, hn, r, h => by
    have hget := @lookupEntry_dynamic dt i (by omega)
    unfold lookupNameValue.go at h
    simp only at h
    split at h
    · rename_i heq
      cases h
      exact ⟨by omega, by rw [hget, heq]⟩
    · split at h
      · rename_i hname
        refine lookupNameValue_go_found dt hdr n (i + 1) _ (by omega) ?_ r h
        intro ni hni
        cases nameIdx with
        | some nj => cases hni; exact hn _ rfl
        | none =>
          cases hni
          exact ⟨by omega, (ringIndex dt i).2, by rw [hget, ← hname]⟩
      · exact lookupNameValue_go_found dt hdr n (i + 1) nameIdx (by omega) hn r h

/-- **An index that is found leads to the header, or to its name.** -/
theorem lookupNameValue_found {dt : DynamicTable} {hdr : Header} {r : Int × Bool}
    (h : lookupNameValue dt hdr = some r) : Found dt hdr r := by
  unfold lookupNameValue at h
  cases hs : findStaticNameValue hdr with
  | some idx =>
    rw [hs] at h
    cases h
    exact findStaticNameValue_some hs dt
  | none =>
    rw [hs] at h
    refine lookupNameValue_go_found dt hdr _ 0 _ (by omega) ?_ r h
    intro ni hni
    obtain ⟨h1, h2, value, hget⟩ := findStaticName_some hni
    exact ⟨h1, value, by rw [lookupEntry, if_pos ⟨h1, h2⟩, staticTableEntry, if_pos ⟨h1, h2⟩, hget]⟩

end Wireform.Http2.Hpack
