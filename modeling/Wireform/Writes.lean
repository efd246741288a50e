/-
  Lists of writes to a finite map.

  A write puts a value at a key, or deletes the key (`none`).

  * `write`, `writeAll`: one write, and a list of them;
  * `lookup_writeAll_of_mem`, `lookup_writeAll_of_not_mem`: with one write for a key, the
    order of the list does not matter;
  * `length_writeAll`: how many entries a list of writes adds;
  * `lookup_filter_key`, `between`: the entries whose keys lie in a range.
-/
import Mathlib.Tactic.Ring
import Wireform.Filing

namespace Wireform.AssocMap

variable {κ β : Type} [LinearOrder κ]

def write (k : κ) (w : Option β) (m : AssocMap κ β) : AssocMap κ β :=
  match w with
  | some v => insert k v m
  | none => erase k m

def writeAll (ws : List (κ × Option β)) (m : AssocMap κ β) : AssocMap κ β := ws.foldl (fun m e => write e.1 e.2 m) m

section
variable {m : AssocMap κ β} {k : κ} {ws : List (κ × Option β)}

@[simp] theorem lookup_write (k k' : κ) (w : Option β) (m : AssocMap κ β) :
    lookup k' (write k w m) = if k' = k then w else lookup k' m := by
  cases w with
  | none => exact lookup_erase k k' m
  | some v => exact lookup_insert k k' v m

theorem Ascending.erase (h : Ascending m) (k : κ) : Ascending (erase k m) := List.Pairwise.filter _ h

theorem Ascending.write (h : Ascending m) (k : κ) (w : Option β) : Ascending (write k w m) := by
  cases w with
  | none => exact h.erase k
  | some v => exact h.insert k v

theorem Ascending.writeAll (h : Ascending m) (ws : List (κ × Option β)) : Ascending (writeAll ws m) := by
  induction ws generalizing m with
  | nil => exact h
  | cons e ws ih => exact ih (h.write e.1 e.2)

theorem lookup_writeAll_of_not_mem (h : k ∉ ws.map Prod.fst) : lookup k (writeAll ws m) = lookup k m := by
  induction ws generalizing m with
  | nil => rfl
  | cons e ws ih =>
    rw [List.map_cons, List.mem_cons, not_or] at h
    show lookup k (writeAll ws (AssocMap.write e.1 e.2 m)) = _
    rw [ih h.2, lookup_write, if_neg h.1]

theorem lookup_writeAll_of_mem {w : Option β} (hd : (ws.map Prod.fst).Nodup) (h : (k, w) ∈ ws) :
    lookup k (writeAll ws m) = w := by
  induction ws generalizing m with
  | nil => cases h
  | cons e ws ih =>
    rw [List.map_cons, List.nodup_cons] at hd
    show lookup k (writeAll ws (AssocMap.write e.1 e.2 m)) = _
    rcases List.mem_cons.1 h with rfl | h
    · rw [lookup_writeAll_of_not_mem hd.1, lookup_write, if_pos rfl]
    · exact ih hd.2 h

/-- How many entries a write adds where `old` is at its key. -/
def gain (w old : Option β) : Int := (if w.isSome then 1 else 0) - (if old.isSome then 1 else 0)

theorem length_write (h : Ascending m) (k : κ) (w : Option β) :
    ((write k w m).length : Int) = m.length + gain w (lookup k m) := by
  cases w with
  | some v =>
    show ((insert k v m).length : Int) = _
    rw [h.length_insert]
    cases hl : lookup k m with
    | none => simp [gain]
    | some v' => simp [gain]
  | none =>
    show ((AssocMap.erase k m).length : Int) = _
    cases hl : lookup k m with
    | none =>
      have hrest : AssocMap.erase k m = m := by
        refine (h.erase k).ext h fun k' => ?_
        rw [lookup_erase]
        split_ifs with hk
        · rw [hk, hl]
        · rfl
      rw [hrest]
      simp [gain]
    | some v =>
      have hlen := (h.perm_of_lookup hl).length_eq
      rw [List.length_cons] at hlen
      change ((m.filter fun e => e.1 ≠ k).length : Int) = _
      rw [hlen]
      simp [gain]

theorem length_writeAll (h : Ascending m) (hd : (ws.map Prod.fst).Nodup) :
    ((writeAll ws m).length : Int) = m.length + (ws.map fun e => gain e.2 (lookup e.1 m)).sum := by
  induction ws generalizing m with
  | nil => simp [writeAll]
  | cons e ws ih =>
    rw [List.map_cons, List.nodup_cons] at hd
    have hsame : (ws.map fun e' => gain e'.2 (lookup e'.1 (AssocMap.write e.1 e.2 m))) =
        ws.map fun e' => gain e'.2 (lookup e'.1 m) := by
      refine List.map_congr_left fun e' he' => ?_
      have hne : e'.1 ≠ e.1 := fun heq => hd.1 (heq ▸ List.mem_map_of_mem he')
      rw [lookup_write, if_neg hne]
    show ((writeAll ws (AssocMap.write e.1 e.2 m)).length : Int) = _
    rw [ih (h.write e.1 e.2) hd.2, hsame, length_write h, List.map_cons, List.sum_cons, Int.add_assoc]

/-! ## Ranges -/

theorem lookup_filter_key (p : κ → Bool) (k : κ) (m : AssocMap κ β) :
    lookup k (m.filter fun e => p e.1) = if p k then lookup k m else none := by
  induction m with
  | nil => simp
  | cons e m ih =>
    obtain ⟨k', v⟩ := e
    by_cases hp : p k'
    · rw [List.filter_cons_of_pos (by exact hp), lookup, ih, lookup]
      split_ifs with h1 h2 h3
      · rfl
      · rw [h1] at h2
        exact absurd hp h2
      · rfl
      · rfl
    · rw [List.filter_cons_of_neg (by exact hp), ih, lookup]
      split_ifs with h1 h2
      · rw [h2] at h1
        exact absurd h1 hp
      · rfl
      · rfl

/-- The entries with keys from `lo` to `hi`. -/
def between (lo hi : κ) (m : AssocMap κ β) : AssocMap κ β := m.filter fun e => decide (lo ≤ e.1 ∧ e.1 ≤ hi)

theorem lookup_between (lo hi k : κ) (m : AssocMap κ β) :
    lookup k (between lo hi m) = if lo ≤ k ∧ k ≤ hi then lookup k m else none := by
  have h := lookup_filter_key (fun k => decide (lo ≤ k ∧ k ≤ hi)) k m
  simp only [decide_eq_true_eq] at h
  exact h

theorem Ascending.between (h : Ascending m) (lo hi : κ) : Ascending (between lo hi m) := List.Pairwise.filter _ h

/-- The map of the entries of a map. -/
theorem Ascending.fromList (h : Ascending m) : fromList m = m :=
  (ascending_fromList m).ext h fun k => by
    cases hl : lookup k m with
    | none =>
      have hk : k ∉ m.map Prod.fst := fun hmem => by
        obtain ⟨v, hv⟩ := (h.key_iff k).1 hmem
        rw [hl] at hv
        cases hv
      refine Option.eq_none_iff_forall_ne_some.2 fun v hv => hk ?_
      exact List.mem_map_of_mem (mem_of_lookup_fromList hv)
    | some v => exact lookup_fromList_of_mem h.nodup_keys (mem_of_lookup hl)

end

end Wireform.AssocMap
