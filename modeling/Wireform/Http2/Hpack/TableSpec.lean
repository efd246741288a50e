/-
  What the dynamic table holds.

  The abstract table is the list of its entries, the newest first.  The ring
  buffer keeps the invariant `Ok`, and each operation acts on the list:

  * `evict_entries`: eviction keeps the newest entries that fit;
  * `insertEntry_entries`: an insertion puts the entry before those that fit
    beside it, or empties the table;
  * `Ok.insertEntry`, `Ok.setMaxSize`: the invariant is kept.
-/
import Wireform.RingBuffer
import Wireform.Http2.Hpack.Table

namespace Wireform.Http2.Hpack

open RingBuffer

/-! ## Lists of entries -/

/-- The size of a list of entries. -/
def totalSize (es : List Header) : Int := (es.map entrySize).sum

/-- The first entries, as long as their size is at most `t`. -/
def fitting (t : Int) : List Header → List Header
  | [] => []
  | e :: es => if entrySize e ≤ t then e :: fitting (t - entrySize e) es else []

attribute [grind =] fitting

@[simp] theorem totalSize_nil : totalSize [] = 0 := rfl

@[simp] theorem totalSize_cons (e : Header) (es : List Header) :
    totalSize (e :: es) = entrySize e + totalSize es := List.sum_cons

theorem totalSize_append (es fs : List Header) : totalSize (es ++ fs) = totalSize es + totalSize fs := by
  rw [totalSize, List.map_append, List.sum_append]
  rfl

theorem entrySize_ge (e : Header) : 32 ≤ entrySize e := by
  have h1 := Int.natCast_nonneg e.1.length
  have h2 := Int.natCast_nonneg e.2.length
  rw [entrySize]
  omega

/-- Every entry counts for 32 octets at least. -/
theorem length_le_totalSize (es : List Header) : 32 * (es.length : Int) ≤ totalSize es := by
  induction es with
  | nil => exact le_rfl
  | cons e es ih =>
    have := entrySize_ge e
    rw [totalSize_cons, List.length_cons]
    omega

theorem totalSize_nonneg (es : List Header) : 0 ≤ totalSize es := by
  have := length_le_totalSize es
  omega

/-- Everything fits. -/
theorem fitting_of_le {t : Int} {es : List Header} (h : totalSize es ≤ t) : fitting t es = es := by
  induction es generalizing t with
  | nil => rfl
  | cons e es ih =>
    have := totalSize_nonneg es
    rw [totalSize_cons] at h
    rw [fitting, if_pos (by omega), ih (by omega)]

/-- The last entry does not fit. -/
theorem fitting_snoc {t : Int} {es : List Header} {e : Header} (h : t < totalSize (es ++ [e])) :
    fitting t (es ++ [e]) = fitting t es := by
  induction es generalizing t with
  | nil =>
    simp only [List.nil_append, totalSize_cons, totalSize_nil] at h
    have he : ¬ entrySize e ≤ t := by omega
    simp only [List.nil_append, fitting, if_neg he]
  | cons f es ih =>
    rw [List.cons_append, totalSize_cons] at h
    rw [List.cons_append, fitting, fitting]
    split
    · rw [ih (by omega)]
    · rfl

theorem totalSize_fitting {t : Int} (ht : 0 ≤ t) (es : List Header) : totalSize (fitting t es) ≤ t := by
  induction es generalizing t with
  | nil => exact ht
  | cons e es ih =>
    rw [fitting]
    split
    · rename_i he
      have := ih (show 0 ≤ t - entrySize e by omega)
      rw [totalSize_cons]
      omega
    · exact ht

/-! ## The entries of the ring buffer -/

/-- The cells of the buffer. -/
def DynamicTable.cell (dt : DynamicTable) (i : Nat) : Header := dt.dtBuffer.getD i ([], [])

/-- The entries of a table, the newest first. -/
def DynamicTable.entries (dt : DynamicTable) : List Header :=
  window dt.dtCapacity dt.cell dt.dtHead dt.dtCount

/-- The invariant of the ring buffer. -/
structure DynamicTable.Ok (dt : DynamicTable) : Prop where
  length_eq : dt.dtBuffer.length = dt.dtCapacity
  capacity_pos : 0 < dt.dtCapacity
  head_lt : dt.dtHead < dt.dtCapacity
  count_le : dt.dtCount ≤ dt.dtCapacity
  size_eq : dt.dtSize = totalSize dt.entries

theorem length_entries (dt : DynamicTable) : dt.entries.length = dt.dtCount := length_window ..

variable {dt : DynamicTable}

theorem entries_getElem? {i : Nat} (hi : i < dt.dtCount) :
    dt.entries[i]? = some (ringIndex dt i) := window_getElem? dt.cell dt.dtHead hi

theorem newDynamicTable_ok (maxSz : Int) : (newDynamicTable maxSz).Ok where
  length_eq := List.length_replicate
  capacity_pos := Nat.zero_lt_succ 127
  head_lt := Nat.zero_lt_succ 127
  count_le := Nat.zero_le _
  size_eq := rfl

/-- **An index leads to an entry of the static table or of the list.** -/
theorem lookupEntry_eq (dt : DynamicTable) (idx : Int) :
    lookupEntry dt idx =
      if 1 ≤ idx ∧ idx ≤ staticTableSize then staticTableEntry idx
      else if staticTableSize < idx then dt.entries[(idx - staticTableSize - 1).toNat]? else none := by
  rw [lookupEntry]
  refine if_congr Iff.rfl rfl ?_
  simp only
  by_cases hlt : staticTableSize < idx
  · rw [if_pos hlt]
    split
    · rename_i h
      rw [entries_getElem? (by omega)]
    · rename_i h
      rw [List.getElem?_eq_none]
      rw [length_entries]
      omega
  · rw [if_neg hlt, if_neg (by omega)]

/-! ## Eviction -/

/-- The oldest entry is the last of the list. -/
theorem entries_eq_snoc (hc : 0 < dt.dtCount) :
    dt.entries = (dropOldest dt).entries ++
      [dt.dtBuffer.getD ((dt.dtHead + dt.dtCount - 1) % dt.dtCapacity) ([], [])] := by
  have h := window_succ (c := dt.dtCapacity) dt.cell dt.dtHead (dt.dtCount - 1)
  rw [Nat.sub_add_cancel hc, ← Nat.add_sub_assoc hc] at h
  exact h

theorem DynamicTable.Ok.dropOldest {dt : DynamicTable} (hok : dt.Ok) (hc : 0 < dt.dtCount) :
    (dropOldest dt).Ok where
  length_eq := hok.length_eq
  capacity_pos := hok.capacity_pos
  head_lt := hok.head_lt
  count_le := (Nat.sub_le _ _).trans hok.count_le
  size_eq := by
    have h := congrArg totalSize (entries_eq_snoc hc)
    rw [← hok.size_eq, totalSize_append, totalSize_cons, totalSize_nil] at h
    show dt.dtSize - entrySize _ = _
    omega

/-- What eviction does not touch. -/
theorem evict_go_frame (t : Int) (n : Nat) (dt : DynamicTable) :
    (evict.go t n dt).dtMaxSize = dt.dtMaxSize := by
  induction n generalizing dt with
  | zero => rfl
  | succ n ih =>
    rw [evict.go]
    split
    · rfl
    · exact ih _

theorem evict_go_ok {t : Int} : ∀ (n : Nat) (dt : DynamicTable), dt.Ok → dt.dtCount = n →
    (evict.go t n dt).Ok ∧ (evict.go t n dt).entries = fitting t dt.entries
  | 0, dt, hok, hn => by
    have he : dt.entries = [] := List.eq_nil_of_length_eq_zero (by rw [length_entries, hn])
    exact ⟨hok, by rw [evict.go, he]; rfl⟩
  | n + 1, dt, hok, hn => by
    rw [evict.go]
    split
    · rename_i hle
      exact ⟨hok, by rw [fitting_of_le]; rw [← hok.size_eq]; exact hle⟩
    · rename_i hgt
      have hsnoc := @entries_eq_snoc dt (by omega)
      have ih := @evict_go_ok t n (dropOldest dt) (hok.dropOldest (by omega))
        (show dt.dtCount - 1 = n by omega)
      refine ⟨ih.1, ?_⟩
      rw [ih.2, hsnoc, fitting_snoc]
      rw [← hsnoc, ← hok.size_eq]
      omega

theorem DynamicTable.Ok.evict {dt : DynamicTable} (hok : dt.Ok) (t : Int) : (evict dt t).Ok :=
  (evict_go_ok _ dt hok rfl).1

/-- **Eviction keeps the newest entries that fit.** -/
theorem evict_entries (hok : dt.Ok) (t : Int) :
    (evict dt t).entries = fitting t dt.entries := (evict_go_ok _ dt hok rfl).2

/-! ## Insertion -/

theorem cell_growBuffer {i : Nat} (hi : i < dt.dtCount) (hc : dt.dtCount ≤ dt.dtCapacity) :
    (growBuffer dt).cell i = dt.cell ((dt.dtHead + i) % dt.dtCapacity) := by
  rw [DynamicTable.cell, growBuffer, List.getD_eq_getElem?_getD, List.getElem?_map,
    List.getElem?_range (by omega)]
  simp only [Option.map_some, Option.getD_some]
  rw [if_pos hi]
  rfl

/-- The buffer grows around the same entries. -/
theorem growBuffer_entries (hok : dt.Ok) : (growBuffer dt).entries = dt.entries := by
  refine List.map_congr_left fun i hi => ?_
  have hi' : i < dt.dtCount := List.mem_range.1 hi
  have hc := hok.count_le
  show (growBuffer dt).cell ((0 + i) % (dt.dtCapacity * 2)) = _
  rw [Nat.zero_add, Nat.mod_eq_of_lt (by omega), cell_growBuffer hi' hc]

theorem DynamicTable.Ok.growBuffer {dt : DynamicTable} (hok : dt.Ok) : (growBuffer dt).Ok where
  length_eq := by rw [Hpack.growBuffer, List.length_map, List.length_range]
  capacity_pos := Nat.mul_pos hok.capacity_pos (by decide)
  head_lt := Nat.mul_pos hok.capacity_pos (by decide)
  count_le := hok.count_le.trans (Nat.le_mul_of_pos_right _ (by decide))
  size_eq := by rw [growBuffer_entries hok]; exact hok.size_eq

/-- A new entry goes to the cell before the head. -/
theorem pushEntry_entries (hok : dt.Ok) (hc : dt.dtCount < dt.dtCapacity)
    (entry : Header) : (pushEntry dt entry).entries = entry :: dt.entries := by
  have hpos := hok.capacity_pos
  have hlt := pred_lt hpos dt.dtHead
  have hcell : ∀ i, (pushEntry dt entry).cell i =
      if i = pred dt.dtCapacity dt.dtHead then entry else dt.cell i := by
    intro i
    show (dt.dtBuffer.set (pred dt.dtCapacity dt.dtHead) entry).getD i ([], []) = _
    simp only [List.getD_eq_getElem?_getD, List.getElem?_set, hok.length_eq, DynamicTable.cell]
    by_cases hi : i = pred dt.dtCapacity dt.dtHead
    · rw [if_pos hi, if_pos hi.symm, if_pos hlt, Option.getD_some]
    · rw [if_neg hi, if_neg (Ne.symm hi)]
  show window dt.dtCapacity _ (pred dt.dtCapacity dt.dtHead) (dt.dtCount + 1) = _
  rw [window_pred hpos, hcell, if_pos rfl]
  congr 1
  apply window_frame
  intro i hi
  rw [hcell, if_neg (pred_ne hpos (by omega))]

theorem DynamicTable.Ok.pushEntry {dt : DynamicTable} (hok : dt.Ok) (hc : dt.dtCount < dt.dtCapacity)
    (entry : Header) : (pushEntry dt entry).Ok where
  length_eq := by rw [Hpack.pushEntry, List.length_set]; exact hok.length_eq
  capacity_pos := hok.capacity_pos
  head_lt := pred_lt hok.capacity_pos _
  count_le := hc
  size_eq := by
    rw [pushEntry_entries hok hc, totalSize_cons, ← hok.size_eq, Int.add_comm]
    rfl

/-- What an insertion makes of the list of entries. -/
def insertList (maxSz : Int) (entry : Header) (es : List Header) : List Header :=
  if entrySize entry > maxSz then [] else entry :: fitting (maxSz - entrySize entry) es

theorem insertEntry_ok_entries (hok : dt.Ok) (entry : Header) :
    (insertEntry dt entry).Ok ∧ (insertEntry dt entry).entries = insertList dt.dtMaxSize entry dt.entries := by
  rw [insertEntry, insertList]
  split
  · exact ⟨⟨hok.length_eq, hok.capacity_pos, hok.head_lt, Nat.zero_le _, rfl⟩, rfl⟩
  · have hev := hok.evict (dt.dtMaxSize - entrySize entry)
    rw [← evict_entries hok]
    generalize evict dt (dt.dtMaxSize - entrySize entry) = dt' at hev ⊢
    simp only
    split
    · rename_i hfull
      have hcap := hev.capacity_pos
      have hcount := hev.count_le
      have hroom : (growBuffer dt').dtCount < (growBuffer dt').dtCapacity :=
        show dt'.dtCount < dt'.dtCapacity * 2 by omega
      exact ⟨hev.growBuffer.pushEntry hroom entry,
        by rw [pushEntry_entries hev.growBuffer hroom, growBuffer_entries hev]⟩
    · rename_i hroom
      exact ⟨hev.pushEntry (by omega) entry, pushEntry_entries hev (by omega) entry⟩

theorem DynamicTable.Ok.insertEntry {dt : DynamicTable} (hok : dt.Ok) (entry : Header) :
    (insertEntry dt entry).Ok := (insertEntry_ok_entries hok entry).1

/-- **An insertion, on the list of entries.** -/
theorem insertEntry_entries (hok : dt.Ok) (entry : Header) :
    (insertEntry dt entry).entries = insertList dt.dtMaxSize entry dt.entries :=
  (insertEntry_ok_entries hok entry).2

@[simp] theorem insertEntry_dtMaxSize (dt : DynamicTable) (entry : Header) :
    (insertEntry dt entry).dtMaxSize = dt.dtMaxSize := by
  rw [insertEntry]
  split
  · rfl
  · simp only
    split
    · exact evict_go_frame ..
    · exact evict_go_frame ..

theorem DynamicTable.Ok.setMaxSize {dt : DynamicTable} (hok : dt.Ok) (newMax : Int) :
    (setMaxSize dt newMax).Ok := by
  refine DynamicTable.Ok.evict ?_ newMax
  exact ⟨hok.length_eq, hok.capacity_pos, hok.head_lt, hok.count_le, hok.size_eq⟩

theorem setMaxSize_entries (hok : dt.Ok) (newMax : Int) :
    (setMaxSize dt newMax).entries = fitting newMax dt.entries := by
  rw [setMaxSize, evict_entries]
  · rfl
  · exact ⟨hok.length_eq, hok.capacity_pos, hok.head_lt, hok.count_le, hok.size_eq⟩

@[simp] theorem setMaxSize_dtMaxSize (dt : DynamicTable) (newMax : Int) :
    (setMaxSize dt newMax).dtMaxSize = newMax := evict_go_frame ..

/-! ## Sizes -/

/-- A table that keeps its invariant within its maximum size; one of a negative
    maximum size is empty. -/
structure DynamicTable.Bounded (dt : DynamicTable) : Prop extends dt.Ok where
  size_le : dt.dtSize ≤ max 0 dt.dtMaxSize

theorem DynamicTable.Ok.size_nonneg (hok : dt.Ok) : 0 ≤ dt.dtSize := by
  rw [hok.size_eq]
  exact totalSize_nonneg _

theorem newDynamicTable_bounded (maxSz : Int) : (newDynamicTable maxSz).Bounded :=
  ⟨newDynamicTable_ok maxSz, le_max_left 0 maxSz⟩

theorem totalSize_insertList {maxSz : Int} (entry : Header) (es : List Header) :
    totalSize (insertList maxSz entry es) ≤ max 0 maxSz := by
  rw [insertList]
  split
  · exact le_max_left 0 maxSz
  · rename_i hle
    have := totalSize_fitting (show 0 ≤ maxSz - entrySize entry by omega) es
    rw [totalSize_cons]
    omega

theorem DynamicTable.Ok.insertEntry_bounded (hok : dt.Ok) (entry : Header) :
    (Hpack.insertEntry dt entry).Bounded := by
  refine ⟨hok.insertEntry entry, ?_⟩
  rw [(hok.insertEntry entry).size_eq, insertEntry_entries hok, insertEntry_dtMaxSize]
  exact totalSize_insertList entry dt.entries

theorem fitting_of_neg {t : Int} (ht : t < 0) (es : List Header) : fitting t es = [] := by
  cases es with
  | nil => rfl
  | cons e es =>
    have := entrySize_ge e
    rw [fitting, if_neg (by omega)]

theorem DynamicTable.Ok.setMaxSize_bounded (hok : dt.Ok) (newMax : Int) :
    (Hpack.setMaxSize dt newMax).Bounded := by
  refine ⟨hok.setMaxSize newMax, ?_⟩
  rw [(hok.setMaxSize newMax).size_eq, setMaxSize_entries hok, setMaxSize_dtMaxSize]
  rcases Int.lt_or_le newMax 0 with hneg | hpos
  · rw [fitting_of_neg hneg]
    exact le_max_left 0 newMax
  · exact (totalSize_fitting hpos _).trans (le_max_right 0 newMax)

/-- The number of entries of a table. -/
theorem DynamicTable.Bounded.count_size (hb : dt.Bounded) :
    32 * (dt.dtCount : Int) ≤ max 0 dt.dtMaxSize := by
  have h1 := length_le_totalSize dt.entries
  rw [length_entries, ← hb.size_eq] at h1
  exact h1.trans hb.size_le

end Wireform.Http2.Hpack
