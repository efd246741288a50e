/-
  Maps that are written entry by entry.

  A log of writes gives a map, in which of two writes to one key the later counts.  Its
  readers may be sent only the writes that change something.

  * `lookup_fromList_append`: more writes;
  * `lookup_append_delta`: the writes that differ from what was there before;
  * `stale_append_delta`: where a reader that did not have it is still wrong afterwards.
-/
import Wireform.AssocMap

namespace Wireform.AssocMap

variable {κ β : Type} [LinearOrder κ] {xs ys d : List (κ × β)} {k : κ}

theorem lookup_foldl_insert_of_mem (h : k ∈ ys.map Prod.fst) (m m' : AssocMap κ β) :
    lookup k (ys.foldl (fun m e => insert e.1 e.2 m) m) = lookup k (ys.foldl (fun m e => insert e.1 e.2 m) m') := by
  induction ys generalizing m m' with
  | nil => exact absurd h List.not_mem_nil
  | cons e ys ih =>
    rw [List.foldl_cons, List.foldl_cons]
    by_cases hm : k ∈ ys.map Prod.fst
    · exact ih hm _ _
    · have hk : k = e.1 := by simpa [hm] using h
      have hnot : ∀ e' ∈ ys, e'.1 ≠ k := fun e' he' heq => hm (heq ▸ List.mem_map_of_mem he')
      rw [lookup_foldl_insert_of_not_mem k ys _ hnot, lookup_foldl_insert_of_not_mem k ys _ hnot, lookup_insert,
        lookup_insert, if_pos hk, if_pos hk]

theorem lookup_fromList_append (xs ys : List (κ × β)) (k : κ) :
    lookup k (fromList (xs ++ ys)) = if k ∈ ys.map Prod.fst then lookup k (fromList ys) else lookup k (fromList xs) := by
  unfold fromList
  rw [List.foldl_append]
  split
  · rename_i hm
    exact lookup_foldl_insert_of_mem hm _ _
  · rename_i hm
    exact lookup_foldl_insert_of_not_mem k ys _ fun e he heq => hm (heq ▸ List.mem_map_of_mem he)

theorem lookup_fromList_eq_some (hys : (ys.map Prod.fst).Nodup) {v : β} :
    lookup k (fromList ys) = some v ↔ (k, v) ∈ ys :=
  ⟨mem_of_lookup_fromList, lookup_fromList_of_mem hys⟩

/-- **The writes that change something.**  `d` are the writes of `ys` that differ from `prev`, in any
    order. -/
theorem lookup_append_delta [DecidableEq β] {prev : κ → Option β} (hys : (ys.map Prod.fst).Nodup)
    (hd : d.Perm (ys.filter fun e => prev e.1 ≠ some e.2)) (k : κ) :
    lookup k (fromList (xs ++ d)) =
      if lookup k (fromList ys) = none ∨ lookup k (fromList ys) = prev k then lookup k (fromList xs)
      else lookup k (fromList ys) := by
  have hdk : (d.map Prod.fst).Nodup := by
    rw [(hd.map Prod.fst).nodup_iff]
    exact hys.sublist (List.filter_sublist.map Prod.fst)
  have hmem (v : β) : (k, v) ∈ d ↔ lookup k (fromList ys) = some v ∧ prev k ≠ some v := by
    rw [hd.mem_iff, List.mem_filter, lookup_fromList_eq_some hys]
    simp
  rw [lookup_fromList_append]
  by_cases hm : k ∈ d.map Prod.fst
  · obtain ⟨⟨k', v⟩, he, rfl⟩ := List.mem_map.1 hm
    obtain ⟨hy, hp⟩ := (hmem v).1 he
    rw [if_pos hm, (lookup_fromList_eq_some hdk).2 he, hy, if_neg]
    rintro (hnone | heq)
    · cases hnone
    · exact hp heq.symm
  · rw [if_neg hm]
    cases hy : lookup k (fromList ys) with
    | none => rw [if_pos (Or.inl rfl)]
    | some v =>
      have hp : prev k = some v := by
        by_contra hp
        exact hm (List.mem_map_of_mem ((hmem v).2 ⟨hy, hp⟩))
      rw [if_pos (Or.inr hp.symm)]

/-- **Where a reader is still wrong**: what it had was wrong, and has not changed. -/
theorem stale_append_delta [DecidableEq β] (xs : List (κ × β)) (prev : κ → Option β) (hys : (ys.map Prod.fst).Nodup)
    (hd : d.Perm (ys.filter fun e => prev e.1 ≠ some e.2))
    (hkept : ∀ k, prev k ≠ none → lookup k (fromList ys) ≠ none) (k : κ) :
    lookup k (fromList (xs ++ d)) ≠ lookup k (fromList ys) ↔
      lookup k (fromList xs) ≠ prev k ∧ lookup k (fromList ys) = prev k := by
  rw [lookup_append_delta hys hd]
  by_cases hsame : lookup k (fromList ys) = prev k
  · rw [if_pos (Or.inr hsame), hsame]
    simp
  · have hsome : lookup k (fromList ys) ≠ none := by
      intro hnone
      refine hkept k (fun hp => hsame ?_) hnone
      rw [hnone, hp]
    rw [if_neg (not_or.2 ⟨hsome, hsame⟩)]
    simp [hsame]

end Wireform.AssocMap
