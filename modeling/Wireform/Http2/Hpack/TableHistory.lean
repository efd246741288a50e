/-
  The dynamic table over a whole run, beside the list model of RFC 7541.

  A history keeps what was inserted since the last entry that was too large for
  the table, and every moment since: the limit in force and what was inserted by
  then.  An entry is live as long as, at every moment since its insertion, it
  fitted the limit together with everything newer.

  * `History.live_step`: one operation, on the live entries;
  * `table_simulates`: the ring buffer holds the live entries after any run, and
    the lookups see nothing else.
-/
import Mathlib.Data.List.DropRight
import Mathlib.Order.Bounds.Basic
import Wireform.Http2.Hpack.TableSpec

namespace Wireform.Http2.Hpack

/-! ## Runs -/

/-- An operation on a table.  Maximum sizes are not negative. -/
inductive TableOp where
  | insertEntry (entry : Header)
  | setMaxSize (newMax : Nat)
  | lookupEntry (idx : Int)
  | lookupNameValue (hdr : Header)

def DynamicTable.step (dt : DynamicTable) : TableOp → DynamicTable
  | .insertEntry entry => Hpack.insertEntry dt entry
  | .setMaxSize newMax => Hpack.setMaxSize dt newMax
  | .lookupEntry _ => dt
  | .lookupNameValue _ => dt

/-- A new table after some operations. -/
def runTable (maxSz : Nat) (ops : List TableOp) : DynamicTable :=
  ops.foldl DynamicTable.step (newDynamicTable maxSz)

/-! ## Histories -/

/-- The limit in force, and what was inserted since the last oversized entry, the
    newest first. -/
structure Moment where
  limit : Int
  inserted : List Header

/-- The moments since the last oversized insertion: the present, and those before
    it. -/
structure History where
  now : Moment
  past : List Moment

def History.init (maxSz : Nat) : History := ⟨⟨maxSz, []⟩, []⟩

def History.next (h : History) (m : Moment) : History := ⟨m, h.now :: h.past⟩

def History.step (h : History) : TableOp → History
  | .insertEntry entry =>
    if entrySize entry > h.now.limit then ⟨⟨h.now.limit, []⟩, []⟩
    else h.next ⟨h.now.limit, entry :: h.now.inserted⟩
  | .setMaxSize newMax => h.next ⟨newMax, h.now.inserted⟩
  | .lookupEntry _ => h
  | .lookupNameValue _ => h

def runHistory (maxSz : Nat) (ops : List TableOp) : History :=
  ops.foldl History.step (History.init maxSz)

/-- At this moment, all but the `old` oldest entries fit. -/
def Moment.FitsBut (m : Moment) (old : Nat) : Prop := totalSize (m.inserted.rdrop old) ≤ m.limit

/-- All but the `old` oldest entries fitted at every moment. -/
def History.FitsBut (h : History) (old : Nat) : Prop := ∀ m ∈ h.now :: h.past, m.FitsBut old

/-- The longest prefix of what was inserted that fits every limit in force since. -/
def History.Live (h : History) (es : List Header) : Prop :=
  ∃ old, IsLeast {old | h.FitsBut old} old ∧ es = h.now.inserted.rdrop old

/-! ## Prefixes -/

theorem rdrop_rdrop (es : List Header) (a b : Nat) : (es.rdrop a).rdrop b = es.rdrop (a + b) := by
  simp only [List.rdrop, List.take_take, List.length_take]
  congr 1
  omega

theorem rdrop_cons {old : Nat} (e : Header) {es : List Header} (h : old ≤ es.length) :
    (e :: es).rdrop old = e :: es.rdrop old := by
  rw [List.rdrop, List.rdrop, List.length_cons, Nat.succ_sub h, List.take_succ_cons]

theorem totalSize_take_le (es : List Header) (n : Nat) : totalSize (es.take n) ≤ totalSize es := by
  have h := totalSize_append (es.take n) (es.drop n)
  rw [List.take_append_drop] at h
  have := totalSize_nonneg (es.drop n)
  omega

/-- What fits is the longest prefix whose size does. -/
theorem fitting_rdrop {t : Int} (ht : 0 ≤ t) (es : List Header) :
    ∃ k, IsLeast {k | totalSize (es.rdrop k) ≤ t} k ∧ fitting t es = es.rdrop k := by
  induction es using List.reverseRecOn with
  | nil => exact ⟨0, ⟨ht, fun _ _ => Nat.zero_le _⟩, rfl⟩
  | append_singleton es e ih =>
    by_cases hall : totalSize (es ++ [e]) ≤ t
    · refine ⟨0, ⟨?_, fun _ _ => Nat.zero_le _⟩, ?_⟩
      · show totalSize ((es ++ [e]).rdrop 0) ≤ t
        rwa [List.rdrop_zero]
      · rw [List.rdrop_zero, fitting_of_le hall]
    · obtain ⟨k, ⟨hk, hleast⟩, hfit⟩ := ih
      refine ⟨k + 1, ⟨?_, ?_⟩, ?_⟩
      · show totalSize ((es ++ [e]).rdrop (k + 1)) ≤ t
        rwa [List.rdrop_concat_succ]
      · intro j hj
        change totalSize ((es ++ [e]).rdrop j) ≤ t at hj
        cases j with
        | zero => exact absurd (by rwa [List.rdrop_zero] at hj) hall
        | succ j =>
          rw [List.rdrop_concat_succ] at hj
          exact Nat.succ_le_succ (hleast hj)
      · rw [fitting_snoc (by omega), hfit, List.rdrop_concat_succ]

/-! ## One operation -/

theorem Moment.FitsBut.mono {m : Moment} {a : Nat} (h : m.FitsBut a) (b : Nat) : m.FitsBut (a + b) := by
  rw [Moment.FitsBut, ← rdrop_rdrop]
  exact (totalSize_take_le _ _).trans h

/-- No limit is negative, and nothing is taken back. -/
def History.Ok (h : History) : Prop :=
  ∀ m ∈ h.now :: h.past, 0 ≤ m.limit ∧ m.inserted.length ≤ h.now.inserted.length

variable {h : History} {dt : DynamicTable}

theorem History.Ok.limit_nonneg (hok : h.Ok) : 0 ≤ h.now.limit := (hok _ List.mem_cons_self).1

theorem History.Ok.next (hok : h.Ok) {m : Moment} (h0 : 0 ≤ m.limit)
    (hlen : h.now.inserted.length ≤ m.inserted.length) : (h.next m).Ok := by
  intro m' hm'
  rcases List.mem_cons.1 hm' with rfl | hm'
  · exact ⟨h0, le_rfl⟩
  · exact ⟨(hok m' hm').1, (hok m' hm').2.trans hlen⟩

/-- Without any entry, every limit is kept. -/
theorem History.Ok.fitsBut_all (hok : h.Ok) : h.FitsBut h.now.inserted.length := by
  intro m hm
  obtain ⟨h0, hlen⟩ := hok m hm
  rw [Moment.FitsBut, List.rdrop, Nat.sub_eq_zero_of_le hlen]
  exact h0

/-- One more limit leaves those that fit it. -/
theorem History.live_next {m : Moment} {old : Nat} (h0 : 0 ≤ m.limit)
    (hold : IsLeast {old | h.FitsBut old} old) :
    (h.next m).Live (fitting m.limit (m.inserted.rdrop old)) := by
  obtain ⟨k, ⟨hk, hleast⟩, hfit⟩ := fitting_rdrop h0 (m.inserted.rdrop old)
  change totalSize ((m.inserted.rdrop old).rdrop k) ≤ m.limit at hk
  refine ⟨old + k, ⟨?_, ?_⟩, ?_⟩
  · intro m' hm'
    rcases List.mem_cons.1 hm' with rfl | hm'
    · rwa [rdrop_rdrop] at hk
    · exact (hold.1 m' hm').mono k
  · intro j hj
    have hle : old ≤ j := hold.2 fun m' hm' => hj m' (List.mem_cons_of_mem _ hm')
    have hm : m.FitsBut j := hj m List.mem_cons_self
    obtain ⟨i, rfl⟩ := Nat.exists_eq_add_of_le hle
    rw [Moment.FitsBut, ← rdrop_rdrop] at hm
    exact Nat.add_le_add_left (hleast hm) old
  · rw [hfit, rdrop_rdrop]
    rfl

/-- The ring buffer holds the live entries of a history. -/
structure Simulates (dt : DynamicTable) (h : History) : Prop where
  ok : dt.Ok
  limits : h.Ok
  max_eq : dt.dtMaxSize = h.now.limit
  live : h.Live dt.entries

theorem Simulates.insertEntry (hs : Simulates dt h) (entry : Header) :
    Simulates (Hpack.insertEntry dt entry) (h.step (.insertEntry entry)) := by
  have h0 := hs.limits.limit_nonneg
  refine ⟨hs.ok.insertEntry entry, ?_, ?_, ?_⟩ <;> rw [History.step]
  · split
    · intro m hm
      obtain rfl := List.mem_singleton.1 hm
      exact ⟨h0, le_rfl⟩
    · exact hs.limits.next h0 (Nat.le_succ _)
  · rw [insertEntry_dtMaxSize, hs.max_eq]
    split <;> rfl
  · rw [insertEntry_entries hs.ok, hs.max_eq, insertList]
    split
    · refine ⟨0, ⟨?_, fun _ _ => Nat.zero_le _⟩, rfl⟩
      intro m hm
      obtain rfl := List.mem_singleton.1 hm
      exact h0
    · rename_i hfits
      obtain ⟨old, hold, hes⟩ := hs.live
      have hle : old ≤ h.now.inserted.length := hold.2 hs.limits.fitsBut_all
      have hnext : (h.next ⟨h.now.limit, entry :: h.now.inserted⟩).Live
          (fitting h.now.limit ((entry :: h.now.inserted).rdrop old)) := h.live_next h0 hold
      rwa [rdrop_cons entry hle, ← hes, fitting, if_pos (by omega)] at hnext

theorem Simulates.setMaxSize (hs : Simulates dt h) (newMax : Nat) :
    Simulates (Hpack.setMaxSize dt newMax) (h.step (.setMaxSize newMax)) where
  ok := hs.ok.setMaxSize newMax
  limits := hs.limits.next (Int.natCast_nonneg newMax) le_rfl
  max_eq := setMaxSize_dtMaxSize dt newMax
  live := by
    obtain ⟨old, hold, hes⟩ := hs.live
    rw [setMaxSize_entries hs.ok, hes]
    exact h.live_next (Int.natCast_nonneg newMax) hold

theorem Simulates.step (hs : Simulates dt h) (op : TableOp) :
    Simulates (dt.step op) (h.step op) := by
  cases op with
  | insertEntry entry => exact hs.insertEntry entry
  | setMaxSize newMax => exact hs.setMaxSize newMax
  | lookupEntry idx => exact hs
  | lookupNameValue hdr => exact hs

theorem simulates_init (maxSz : Nat) : Simulates (newDynamicTable maxSz) (History.init maxSz) where
  ok := newDynamicTable_ok maxSz
  limits := by
    intro m hm
    obtain rfl := List.mem_singleton.1 hm
    exact ⟨Int.natCast_nonneg maxSz, le_rfl⟩
  max_eq := rfl
  live := by
    refine ⟨0, ⟨?_, fun _ _ => Nat.zero_le _⟩, rfl⟩
    intro m hm
    obtain rfl := List.mem_singleton.1 hm
    exact Int.natCast_nonneg maxSz

/-! ## Runs -/

theorem Simulates.run (hs : Simulates dt h) (ops : List TableOp) :
    Simulates (ops.foldl DynamicTable.step dt) (ops.foldl History.step h) := by
  induction ops generalizing dt h with
  | nil => exact hs
  | cons op ops ih => exact ih (hs.step op)

/-- The dynamic indices read the entries, and end with them. -/
theorem lookupEntry_entries (dt : DynamicTable) (i : Nat) : lookupEntry dt (61 + (i + 1 : Nat)) = dt.entries[i]? := by
  have h61 : (staticTableSize : Int) = 61 := rfl
  rw [lookupEntry_eq, if_neg (by omega), if_pos (by omega)]
  congr 1
  omega

/-- **The ring buffer is the list of the live entries**, after any operations on a
    new table. -/
theorem table_simulates (maxSz : Nat) (ops : List TableOp) :
    ∃ live, (runHistory maxSz ops).Live live ∧
      (∀ i : Nat, lookupEntry (runTable maxSz ops) (61 + (i + 1 : Nat)) = live[i]?) ∧
      (runTable maxSz ops).dtCount = live.length ∧
      (runTable maxSz ops).dtSize = (live.map entrySize).sum ∧
      (runTable maxSz ops).dtMaxSize = (runHistory maxSz ops).now.limit ∧
      (runTable maxSz ops).dtSize ≤ (runTable maxSz ops).dtMaxSize ∧
      ∀ hdr r, lookupNameValue (runTable maxSz ops) hdr = some r → Found (runTable maxSz ops) hdr r := by
  have hs : Simulates (runTable maxSz ops) (runHistory maxSz ops) := (simulates_init maxSz).run ops
  refine ⟨_, hs.live, lookupEntry_entries _, (length_entries _).symm, hs.ok.size_eq, hs.max_eq, ?_,
    fun hdr r => lookupNameValue_found⟩
  obtain ⟨old, ⟨hfits, -⟩, hes⟩ := hs.live
  rw [hs.max_eq, hs.ok.size_eq, hes]
  exact hfits _ List.mem_cons_self

end Wireform.Http2.Hpack
