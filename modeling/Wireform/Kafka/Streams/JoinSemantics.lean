/-
  What a window join emits, over every arrival order.

  * `Emits`: what one arrival emits, in terms of the arrivals before it;
  * `inv_step`: the stores hold what has arrived and what still waits;
  * `semantics`: the joined outputs, the unmatched ones, and their order.

  A record is emitted unmatched when its window closes, but a record that arrives later and
  is not late by its own test may still join it.
-/
import Wireform.Kafka.Streams.JoinRun

namespace Wireform.Kafka.Streams.WindowJoin

variable {K : Type} [LinearOrder K] {V1 V2 Vo : Type}

namespace Run

variable (R : Run K V1 V2 Vo) (l r : ℕ) {i j n : ℕ} {k : K}

/-! ## What an arrival settles -/

omit [LinearOrder K] in
theorem pair_comm : R.Pair i j ↔ R.Pair j i := by
  unfold Pair
  constructor
  · rintro ⟨hs, ⟨k, h1, h2⟩, h3, h4⟩
    exact ⟨hs.symm, ⟨k, h2, h1⟩, h4, h3⟩
  · rintro ⟨hs, ⟨k, h1, h2⟩, h3, h4⟩
    exact ⟨hs.symm, ⟨k, h2, h1⟩, h4, h3⟩

omit [LinearOrder K] in
theorem held_succ :
    R.Held i (n + 1) ↔
      R.Held i n ∧ ¬ R.Settles i n ∨ i = n ∧ R.Unpaired n ∧ R.streamTime (n + 1) ≤ R.windowEnd n := by
  constructor
  · rintro ⟨hlt, hu, hopen, hno⟩
    rcases Nat.lt_succ_iff_lt_or_eq.1 hlt with hlt | rfl
    · exact Or.inl ⟨⟨hlt, hu, hopen, fun j h1 h2 => hno j h1 (by omega)⟩, hno n hlt (by omega)⟩
    · exact Or.inr ⟨rfl, hu, hopen⟩
  · rintro (⟨⟨hlt, hu, hopen, hno⟩, hn⟩ | ⟨rfl, hu, hopen⟩)
    · refine ⟨by omega, hu, hopen, fun j h1 h2 => ?_⟩
      rcases Nat.lt_succ_iff_lt_or_eq.1 h2 with h2 | rfl
      · exact hno j h1 h2
      · exact hn
    · exact ⟨by omega, hu, hopen, fun j h1 h2 => by omega⟩

/-- The held records that the `n`-th arrival leaves. -/
def unsettled (n : ℕ) : Set (ℕ ⊕ ℕ) := {z | ∃ i, z = tag (R.side i) i ∧ R.Held i n ∧ ¬ R.Settles i n}

/-- **A match takes the records of the other side that it joins out of the outer store.** -/
theorem filed_unhold {o : OuterStore K ℕ ℕ} {ys : List ℕ} (hk : R.key n = some k) (hn : ¬ R.Late n)
    (hys : ∀ y, y ∈ ys ↔ y < n ∧ R.Pair n y) (h : AssocMap.Filed R.outerPlace (R.kept n) o) :
    AssocMap.Filed R.outerPlace (R.unsettled n)
      (unhold (R.config (R.side n)) k (ys.map fun y => (R.ts y, y)) o) := by
  refine (h.foldl_erase _).congr fun z key hkey => ?_
  constructor
  · rintro ⟨⟨i, rfl, hi, hc⟩, hno⟩
    refine ⟨i, rfl, hi, ?_⟩
    rintro (⟨-, hp⟩ | hc')
    · obtain ⟨k', hki, hkn⟩ := hp.2.1
      rw [hk] at hkn
      cases hkn
      have hmem : i ∈ ys := (hys i).2 ⟨hi.1, R.pair_comm.1 hp⟩
      refine hno (outerKey (R.ts i) (R.side n).opposite k)
        (List.mem_map.2 ⟨(R.ts i, i), List.mem_map_of_mem hmem, by rw [config_side]⟩) ?_
      rw [outerPlace_tag, heldPlace, hki, opposite_of_ne hp.1.symm]
      rfl
    · exact hc hc'
  · rintro ⟨i, rfl, hi, hs⟩
    refine ⟨⟨i, rfl, hi, fun hc => hs (Or.inr hc)⟩, fun key' hkey' heq => ?_⟩
    simp only [List.map_map, List.mem_map, Function.comp_def, config_side] at hkey'
    obtain ⟨y, hy, rfl⟩ := hkey'
    obtain ⟨-, hside, ⟨k', hkn, hky⟩, h1, h2⟩ := (hys y).1 hy
    obtain ⟨ki, hki⟩ := Option.isSome_iff_exists.1 hi.2.1.2.1
    rw [hk] at hkn
    cases hkn
    rw [outerPlace_tag, heldPlace, hki] at heq
    have hkeys := Option.some.inj heq
    have hts : R.ts i = R.ts y := congrArg okTs hkeys
    have hsi : R.side i = (R.side n).opposite := congrArg okSide hkeys
    have hkk : ki = k := congrArg okKey hkeys
    have hend : R.windowEnd i = R.windowEnd y := by
      unfold windowEnd
      rw [hts, hsi, opposite_of_ne hside]
    refine hs (Or.inl ⟨hn, R.pair_comm.1 ⟨?_, ⟨k, hk, by rw [hki, hkk]⟩, ?_, ?_⟩⟩)
    · rw [hsi]
      exact opposite_ne _
    · rwa [hts]
    · rwa [hend]

/-! ## What an arrival makes the join emit -/

/-- The events of the `n`-th arrival. -/
structure Emits (n : ℕ) (evs : List Event) : Prop where
  nodup : evs.Nodup
  joined : ∀ l r, .joined l r ∈ evs ↔
    n = max l r ∧ ¬ R.Late n ∧ R.side l = .leftSide ∧ R.side r = .rightSide ∧ R.Pair l r
  unmatched : ∀ s i, .unmatched s i ∈ evs ↔
    s = R.side i ∧ (R.Held i n ∧ R.Closes i n ∨ i = n ∧ R.Unpaired n ∧ R.windowEnd n < R.streamTime (n + 1))
  sorted : evs.Pairwise fun e e' => ∀ s i s' j, e = .unmatched s i → e' = .unmatched s' j → R.ts i ≤ R.ts j

omit [LinearOrder K] in
/-- A record without a key, or late, emits nothing. -/
theorem emits_nil (h : (R.key n).isSome → R.Late n) : R.Emits n [] where
  nodup := List.nodup_nil
  joined l r := by
    simp only [List.not_mem_nil, false_iff]
    rintro ⟨hmax, hn, -, -, -, ⟨k, hl, hr⟩, -⟩
    refine hn (h ?_)
    rcases max_choice l r with hm | hm
    · rw [hmax, hm, hl]; rfl
    · rw [hmax, hm, hr]; rfl
  unmatched s i := by
    simp only [List.not_mem_nil, false_iff]
    rintro ⟨-, ⟨-, hc⟩ | ⟨-, hu, -⟩⟩
    · exact hc.2.1 (h hc.1)
    · exact hu.2.2.1 (h hu.2.1)
  sorted := List.Pairwise.nil

/-- The own event of an arrival whose window had ended. -/
def ownEvents (n : ℕ) (ys : List ℕ) : List Event :=
  if ys = [] ∧ R.spec.outer (R.side n) = true ∧ R.windowEnd n < R.streamTime (n + 1) then [.unmatched (R.side n) n]
  else []

section

omit [LinearOrder K]

theorem mem_pairEvents {ys : List ℕ} (hn : ¬ R.Late n) (hys : ∀ y, y ∈ ys ↔ y < n ∧ R.Pair n y) :
    .joined l r ∈ ys.map (pairEvent (R.side n) n) ↔
      n = max l r ∧ ¬ R.Late n ∧ R.side l = .leftSide ∧ R.side r = .rightSide ∧ R.Pair l r := by
  simp only [List.mem_map, hys]
  cases hs : R.side n with
  | leftSide =>
    constructor
    · rintro ⟨y, ⟨hlt, hp⟩, heq⟩
      cases heq
      exact ⟨(max_eq_left hlt.le).symm, hn, hs, by rw [opposite_of_ne hp.1, hs]; rfl, hp⟩
    · rintro ⟨hmax, -, hl, hr, hp⟩
      have hne : n ≠ r := fun h => by
        rw [h, hr] at hs
        cases hs
      have hln : l = n := by omega
      subst hln
      exact ⟨r, ⟨by omega, hp⟩, rfl⟩
  | rightSide =>
    constructor
    · rintro ⟨y, ⟨hlt, hp⟩, heq⟩
      cases heq
      exact ⟨(max_eq_right hlt.le).symm, hn, by rw [opposite_of_ne hp.1, hs]; rfl, hs, R.pair_comm.1 hp⟩
    · rintro ⟨hmax, -, hl, hr, hp⟩
      have hne : n ≠ l := fun h => by
        rw [h, hl] at hs
        cases hs
      have hrn : r = n := by omega
      subst hrn
      exact ⟨l, ⟨by omega, R.pair_comm.1 hp⟩, rfl⟩

theorem pairEvent_ne (s t : Side) (x y : ℕ) : pairEvent s x y ≠ .unmatched t i := by
  cases s <;> exact Event.noConfusion

/-- **Released records, joined records, and the record itself.** -/
theorem emits_lists {zs ys : List ℕ} (hk : (R.key n).isSome) (hn : ¬ R.Late n) (hzd : zs.Nodup)
    (hzs : zs.Pairwise fun i j => R.ts i ≤ R.ts j) (hz : ∀ i, i ∈ zs ↔ R.Held i n ∧ R.Closes i n) (hyd : ys.Nodup)
    (hy : ∀ y, y ∈ ys ↔ y < n ∧ R.Pair n y) :
    R.Emits n (zs.map R.heldEvent ++ ys.map (pairEvent (R.side n) n) ++ R.ownEvents n ys) := by
  have hown : ∀ e, e ∈ R.ownEvents n ys ↔
      e = .unmatched (R.side n) n ∧ R.Unpaired n ∧ R.windowEnd n < R.streamTime (n + 1) := fun e => by
    unfold ownEvents
    have hnil : ys = [] ↔ ∀ j < n, ¬ R.Pair n j := by
      rw [List.eq_nil_iff_forall_not_mem]
      exact forall_congr' fun y => by rw [hy, not_and]
    split_ifs with hc
    · rw [List.mem_singleton]
      exact ⟨fun he => ⟨he, ⟨hc.2.1, hk, hn, hnil.1 hc.1⟩, hc.2.2⟩, fun he => he.1⟩
    · simp only [List.not_mem_nil, false_iff]
      rintro ⟨-, hu, hend⟩
      exact hc ⟨hnil.2 hu.2.2.2, hu.1, hend⟩
  have hheld : ∀ s i, .unmatched s i ∈ zs.map R.heldEvent ↔ s = R.side i ∧ R.Held i n ∧ R.Closes i n := fun s i => by
    rw [List.mem_map]
    constructor
    · rintro ⟨j, hj, heq⟩
      cases heq
      exact ⟨rfl, (hz i).1 hj⟩
    · rintro ⟨rfl, hi⟩
      exact ⟨i, (hz i).2 hi, rfl⟩
  -- a record whose window had ended releases nothing
  have hnone : R.windowEnd n < R.streamTime (n + 1) → zs = [] := fun hend => by
    refine List.eq_nil_iff_forall_not_mem.2 fun i hi => ?_
    have hc := ((hz i).1 hi).2.2.2.1
    have hahead := (R.ahead_range (R.side n)).1
    unfold windowEnd at hend
    omega
  have howned : R.ownEvents n ys = [] ∨ R.ownEvents n ys = [.unmatched (R.side n) n] := by
    unfold ownEvents
    split_ifs
    · exact Or.inr rfl
    · exact Or.inl rfl
  constructor
  · refine ((hzd.map fun i j h => (Event.unmatched.inj h).2).append (hyd.map fun x y h => ?_) ?_).append ?_ ?_
    · cases hs : R.side n with
      | leftSide =>
        rw [hs] at h
        cases h; rfl
      | rightSide =>
        rw [hs] at h
        cases h; rfl
    · intro e he he'
      obtain ⟨i, -, rfl⟩ := List.mem_map.1 he
      obtain ⟨y, -, heq⟩ := List.mem_map.1 he'
      exact pairEvent_ne _ _ _ _ heq
    · rcases howned with h | h <;> simp [h]
    · intro e he he'
      obtain ⟨rfl, -, -⟩ := (hown e).1 he'
      rcases List.mem_append.1 he with he | he
      · have hlt := ((hheld _ _).1 he).2.1.1
        omega
      · obtain ⟨y, -, heq⟩ := List.mem_map.1 he
        exact pairEvent_ne _ _ _ _ heq
  · intro l r
    rw [← R.mem_pairEvents l r hn hy, List.mem_append, List.mem_append]
    constructor
    · rintro ((he | he) | he)
      · obtain ⟨i, -, heq⟩ := List.mem_map.1 he
        cases heq
      · exact he
      · cases ((hown _).1 he).1
    · exact fun he => Or.inl (Or.inr he)
  · intro s i
    rw [List.mem_append, List.mem_append, hheld, hown]
    constructor
    · rintro ((⟨rfl, hi⟩ | he) | ⟨heq, hi⟩)
      · exact ⟨rfl, Or.inl hi⟩
      · obtain ⟨y, -, heq⟩ := List.mem_map.1 he
        exact absurd heq (pairEvent_ne _ _ _ _)
      · cases heq
        exact ⟨rfl, Or.inr ⟨rfl, hi⟩⟩
    · rintro ⟨rfl, hi | ⟨rfl, hi⟩⟩
      · exact Or.inl (Or.inl ⟨rfl, hi⟩)
      · exact Or.inr ⟨rfl, hi⟩
  · rw [List.append_assoc, List.pairwise_append]
    refine ⟨?_, ?_, ?_⟩
    · rw [List.pairwise_map]
      refine hzs.imp fun {i j} hle s i' s' j' he he' => ?_
      cases he
      cases he'
      exact hle
    · refine List.pairwise_append.2 ⟨?_, ?_, ?_⟩
      · refine List.pairwise_of_forall_mem_list fun e he e' _ s i s' j heq _ => ?_
        obtain ⟨y, -, rfl⟩ := List.mem_map.1 he
        exact absurd heq (pairEvent_ne _ _ _ _)
      · rcases howned with h | h <;> simp [h]
      · intro e he e' _ s i s' j heq _
        obtain ⟨y, -, rfl⟩ := List.mem_map.1 he
        exact absurd heq (pairEvent_ne _ _ _ _)
    · intro e he e' he' s i s' j heq heq'
      subst heq'
      rcases List.mem_append.1 he' with he' | he'
      · obtain ⟨y, -, heq'⟩ := List.mem_map.1 he'
        exact absurd heq' (pairEvent_ne _ _ _ _)
      · rw [hnone ((hown _).1 he').2.2] at he
        cases he

end

/-! ## The run -/

/-- The outer store, if there is one, holds what waits. -/
def Holds (S : Set (ℕ ⊕ ℕ)) (outer : Option (OuterStore K ℕ ℕ)) : Prop :=
  outer.isSome = R.spec.hasOuter ∧ ∀ o, outer = some o → AssocMap.Filed R.outerPlace S o

omit [LinearOrder K] in
theorem waiting_succ_of_not (h : ¬ (R.Unpaired n ∧ R.streamTime (n + 1) ≤ R.windowEnd n)) :
    R.waiting (n + 1) = R.unsettled n := by
  ext z
  constructor
  · rintro ⟨i, rfl, hi⟩
    rcases R.held_succ.1 hi with hi | ⟨rfl, hi⟩
    · exact ⟨i, rfl, hi⟩
    · exact absurd hi h
  · rintro ⟨i, rfl, hi⟩
    exact ⟨i, rfl, R.held_succ.2 (Or.inl hi)⟩

omit [LinearOrder K] in
theorem waiting_succ_of_idle (h : (R.key n).isSome → R.Late n) : R.waiting (n + 1) = R.waiting n := by
  rw [R.waiting_succ_of_not fun hu => hu.1.2.2.1 (h hu.1.2.1)]
  ext z
  constructor
  · rintro ⟨i, rfl, hi, -⟩
    exact ⟨i, rfl, hi⟩
  · rintro ⟨i, rfl, hi⟩
    refine ⟨i, rfl, hi, ?_⟩
    rintro (⟨hn, -, ⟨k, -, hk⟩, -⟩ | hc)
    · exact hn (h (by rw [hk]; rfl))
    · exact hc.2.1 (h hc.1)

variable {outer : Option (OuterStore K ℕ ℕ)}

/-- **A record without a match is held or emitted.** -/
theorem holdOrEmit_spec {ys : List ℕ} (hk : R.key n = some k) (hn : ¬ R.Late n)
    (hy : ∀ y, y ∈ ys ↔ y < n ∧ R.Pair n y) (h : R.Holds (R.unsettled n) outer) :
    ∃ outer', (if ys.map (fun y => (R.ts y, y)) = [] then
        holdOrEmit (R.config (R.side n)) (R.streamTime (n + 1)) k ⟨some k, n, R.ts n, (R.arrivals n).recordHeaders⟩ outer
      else (outer, [])) = (outer', (R.ownEvents n ys).map fun e => R.stamp n e e) ∧
      R.Holds (R.waiting (n + 1)) outer' := by
  have hks : (R.key n).isSome := by rw [hk]; rfl
  have hpairs : ys = [] ↔ ∀ j < n, ¬ R.Pair n j := by
    rw [List.eq_nil_iff_forall_not_mem]
    exact forall_congr' fun y => by rw [hy, not_and]
  have hunpaired : R.Unpaired n ↔ R.spec.outer (R.side n) = true ∧ ys = [] := by
    rw [hpairs]
    exact ⟨fun hu => ⟨hu.1, hu.2.2.2⟩, fun hu => ⟨hu.1, hks, hn, hu.2⟩⟩
  have hend : addInt (R.ts n) (R.windows.ahead (R.side n)) = R.windowEnd n := by
    have hfits := ((R.not_late_iff hks).1 hn).2
    have hts := R.timestamps n
    have hahead := R.ahead_range (R.side n)
    have hgrace := R.windows.grace_range
    change 0 ≤ R.ts n ∧ R.ts n < 2 ^ 63 at hts
    unfold windowEnd at hfits ⊢
    exact addInt_eq (by unfold InRange; omega)
  simp only [List.map_eq_nil_iff]
  by_cases hnil : ys = []
  · rw [if_pos hnil]
    cases ho : R.spec.outer (R.side n) with
    | false =>
      refine ⟨outer, ?_, ?_⟩
      · unfold holdOrEmit
        rw [config_unmatched, ho]
        simp [ownEvents, ho]
      · rw [R.waiting_succ_of_not fun hu => by rw [(hunpaired.1 hu.1).1] at ho; cases ho]
        exact h
    | true =>
      obtain ⟨hsome, hfiled⟩ := h
      have houter : R.spec.hasOuter = true := by
        unfold WindowJoinSpec.hasOuter
        cases hs : R.side n <;> rw [hs] at ho <;> simp only [WindowJoinSpec.outer] at ho <;> simp [ho]
      rw [houter] at hsome
      obtain ⟨o, rfl⟩ := Option.isSome_iff_exists.1 hsome
      simp only [holdOrEmit, config_unmatched, ho, if_true, config_ahead, hend, config_side, config_hold]
      split_ifs with hopen
      · refine ⟨some (AssocMap.push (outerKey (R.ts n) (R.side n) k) (tag (R.side n) n) o), ?_, houter.symm,
          fun o' ho' => ?_⟩
        · simp [ownEvents, hnil, ho, not_lt.2 hopen]
        · cases ho'
          have hplace : R.outerPlace (tag (R.side n) n) = some (outerKey (R.ts n) (R.side n) k) := by
            rw [outerPlace_tag, heldPlace, hk]
            rfl
          have hnew : tag (R.side n) n ∉ R.unsettled n := by
            rintro ⟨i, htag, hi, -⟩
            have hin : n = i := by simpa using congrArg (Sum.elim id id) htag
            exact absurd hi.1 (by omega)
          refine ((hfiled o rfl).push hnew hplace).congr fun z key _ => ?_
          constructor
          · rintro (rfl | ⟨i, rfl, hi⟩)
            · exact ⟨n, rfl, R.held_succ.2 (Or.inr ⟨rfl, hunpaired.2 ⟨ho, hnil⟩, hopen⟩)⟩
            · exact ⟨i, rfl, R.held_succ.2 (Or.inl hi)⟩
          · rintro ⟨i, rfl, hi⟩
            rcases R.held_succ.1 hi with hi | ⟨rfl, -⟩
            · exact Or.inr ⟨i, rfl, hi⟩
            · exact Or.inl rfl
      · refine ⟨some o, ?_, ?_⟩
        · simp [ownEvents, hnil, ho, not_le.1 hopen, stamp, hk]
        · rw [R.waiting_succ_of_not fun hu => hopen hu.2]
          exact ⟨hsome.trans houter.symm, hfiled⟩
  · rw [if_neg hnil]
    refine ⟨outer, ?_, ?_⟩
    · simp [ownEvents, hnil]
    · rw [R.waiting_succ_of_not fun hu => hnil (hunpaired.1 hu.1).2]
      exact h

/-- What the stores hold before the `n`-th arrival. -/
structure Inv (n : ℕ) (st : State K ℕ ℕ) : Prop where
  left : AssocMap.Filed R.place (R.arrived .leftSide n) st.leftStore
  right : AssocMap.Filed R.place (R.arrived .rightSide n) st.rightStore
  outer : R.Holds (R.waiting n) st.outerStore
  time : st.streamTime = R.streamTime n

omit [LinearOrder K] in
theorem arrived_succ (s : Side) : R.arrived s (n + 1) = {i | (i = n ∧ R.side n = s) ∨ i ∈ R.arrived s n} := by
  ext i
  constructor
  · rintro ⟨hlt, hs⟩
    rcases Nat.lt_succ_iff_lt_or_eq.1 hlt with hlt | rfl
    · exact Or.inr ⟨hlt, hs⟩
    · exact Or.inl ⟨rfl, hs⟩
  · rintro (⟨rfl, hs⟩ | ⟨hlt, hs⟩)
    · exact ⟨by omega, hs⟩
    · exact ⟨by omega, hs⟩

theorem sweep_holds (s : Side) (hk : (R.key n).isSome) (hn : ¬ R.Late n)
    (h : R.Holds (R.waiting n) outer) :
    ∃ (zs : List ℕ) (outer' : Option (OuterStore K ℕ ℕ)),
      sweep (R.config s) (R.ts n) (R.streamTime (n + 1)) (R.arrivals n).recordHeaders outer =
        (outer', zs.map fun i => R.stamp n (R.heldEvent i) (R.heldEvent i)) ∧
      zs.Nodup ∧ zs.Pairwise (fun i j => R.ts i ≤ R.ts j) ∧ (∀ i, i ∈ zs ↔ R.Held i n ∧ R.Closes i n) ∧
      R.Holds (R.kept n) outer' := by
  obtain ⟨hsome, hfiled⟩ := h
  cases outer with
  | none =>
    refine ⟨[], none, rfl, List.nodup_nil, List.Pairwise.nil, fun i => ?_, hsome, fun o ho => by cases ho⟩
    simp only [List.not_mem_nil, false_iff]
    rintro ⟨hi, -⟩
    have houter := hi.2.1.1
    unfold WindowJoinSpec.hasOuter at hsome
    cases hs : R.side i <;> rw [hs] at houter <;> simp only [WindowJoinSpec.outer] at houter <;>
      simp [houter] at hsome
  | some o =>
    obtain ⟨zs, o', heq, hzd, hzs, hz, ho'⟩ := R.sweep_spec s hk hn (hfiled o rfl)
    exact ⟨zs, some o', heq, hzd, hzs, hz, hsome, fun o ho => by cases ho; exact ho'⟩

/-- **One arrival of a side.** -/
theorem process_spec {self other : WindowStore K ℕ} (hk : R.key n = some k)
    (hself : AssocMap.Filed R.place (R.arrived (R.side n) n) self)
    (hother : AssocMap.Filed R.place (R.arrived (R.side n).opposite n) other) (houter : R.Holds (R.waiting n) outer) :
    ∃ self' outer' evs,
      process (R.config (R.side n)) ⟨self, other, outer, R.streamTime n⟩ k
          ⟨some k, n, R.ts n, (R.arrivals n).recordHeaders⟩ =
        (⟨self', other, outer', R.streamTime (n + 1)⟩, evs.map fun e => R.stamp n e e) ∧
      AssocMap.Filed R.place (R.arrived (R.side n) (n + 1)) self' ∧ R.Holds (R.waiting (n + 1)) outer' ∧
      R.Emits n evs := by
  have hks : (R.key n).isSome := by rw [hk]; rfl
  have hplace : R.place n = some (toLex (R.ts n, k)) := by
    unfold place
    rw [hk]
    rfl
  have hpush : AssocMap.Filed R.place (R.arrived (R.side n) (n + 1)) (appendAt self k n (R.ts n)) := by
    refine (hself.push (fun hm => absurd hm.1 (lt_irrefl n)) hplace).congr fun i _ _ => ?_
    rw [arrived_succ]
    exact or_congr_left ⟨fun h => ⟨h, rfl⟩, fun h => h.1⟩
  have hlate : late (R.config (R.side n)) (R.ts n) (R.streamTime (n + 1)) = true ↔ R.Late n := by
    unfold late Late
    rw [config_ahead, config_grace]
    exact decide_eq_true_iff
  unfold process
  simp only [← R.streamTime_succ hks]
  by_cases hl : R.Late n
  · rw [if_pos (hlate.2 hl)]
    refine ⟨_, outer, [], rfl, hpush, ?_, R.emits_nil fun _ => hl⟩
    rw [R.waiting_succ_of_idle fun _ => hl]
    exact houter
  · rw [if_neg fun h => hl (hlate.1 h)]
    obtain ⟨ys, hfound, hyd, hy⟩ := R.matchesOf_spec hk hl hother
    obtain ⟨zs, outer₁, hsweep, hzd, hzs, hz, hkept⟩ := R.sweep_holds (R.side n) hks hl houter
    have hunhold : R.Holds (R.unsettled n)
        (outer₁.map (unhold (R.config (R.side n)) k (ys.map fun y => (R.ts y, y)))) := by
      obtain ⟨hsome, hfiled⟩ := hkept
      refine ⟨by rw [Option.isSome_map, hsome], fun o ho => ?_⟩
      obtain ⟨o₁, ho₁, rfl⟩ := Option.map_eq_some_iff.1 ho
      exact R.filed_unhold hk hl hy (hfiled o₁ ho₁)
    obtain ⟨outer', hown, hholds⟩ := R.holdOrEmit_spec hk hl hy hunhold
    have hjoined : (ys.map fun y => (R.ts y, y)).map (fun m => (⟨some k, (R.config (R.side n)).scJoin n m.2,
        max (R.ts n) m.1, (R.arrivals n).recordHeaders⟩ : Record K Event)) =
          (ys.map (pairEvent (R.side n) n)).map fun e => R.stamp n e e := by
      rw [List.map_map, List.map_map]
      refine List.map_congr_left fun y hmem => ?_
      obtain ⟨k', hkn, hky⟩ := ((hy y).1 hmem).2.2.1
      rw [hk] at hkn
      cases hkn
      cases hs : R.side n with
      | leftSide => simp [pairEvent, stamp, hk]
      | rightSide => simp [pairEvent, stamp, hky, max_comm]
    rw [hsweep, hfound]
    simp only
    rw [hown, hjoined]
    refine ⟨_, outer', _, ?_, hpush, hholds, R.emits_lists hks hl hzd hzs hz hyd hy⟩
    rw [List.map_append, List.map_append, List.map_map, List.map_map]
    rfl

theorem inv_init : R.Inv 0 (State.init R.tagSpec) := by
  have hempty : ∀ s, AssocMap.Filed R.place (R.arrived s 0) [] := fun s =>
    AssocMap.Filed.empty.congr fun i _ _ => ⟨False.elim, fun h => absurd h.1 (Nat.not_lt_zero i)⟩
  have houter : R.tagSpec.hasOuter = R.spec.hasOuter := by
    simp [WindowJoinSpec.hasOuter, tagSpec]
  refine ⟨hempty _, hempty _, ?_, rfl⟩
  unfold State.init Holds
  rw [houter]
  refine ⟨?_, fun o ho => ?_⟩
  · cases R.spec.hasOuter <;> rfl
  · have hnil : o = [] := by
      cases h : R.spec.hasOuter with
      | false => rw [h] at ho; cases ho
      | true => rw [h] at ho; cases ho; rfl
    subst hnil
    refine AssocMap.Filed.empty.congr fun z _ _ => ⟨False.elim, ?_⟩
    rintro ⟨i, -, hi⟩
    exact absurd hi.1 (Nat.not_lt_zero i)

/-- **One arrival.** -/
theorem inv_step {st : State K ℕ ℕ} (h : R.Inv n st) :
    ∃ st' evs, step R.windows R.tagSpec st (R.tagged n) = (st', evs.map fun e => R.stamp n e e) ∧
      R.Inv (n + 1) st' ∧ R.Emits n evs := by
  obtain ⟨hleft, hright, houter, htime⟩ := h
  cases hk : R.key n with
  | none =>
    have hno : ¬ (R.key n).isSome := by rw [hk]; exact Bool.false_ne_true
    have hnone : R.place n = none := by
      unfold place
      rw [hk]
      rfl
    -- a record without a key has no place
    have hstay : ∀ s store, AssocMap.Filed R.place (R.arrived s n) store →
        AssocMap.Filed R.place (R.arrived s (n + 1)) store := fun s store h => by
      rw [arrived_succ]
      refine h.congr fun i e he => ⟨Or.inr, fun hi => hi.resolve_left ?_⟩
      rintro ⟨rfl, -⟩
      rw [hnone] at he
      cases he
    refine ⟨st, [], ?_, ⟨hstay _ _ hleft, hstay _ _ hright, ?_, ?_⟩, R.emits_nil fun h => absurd h hno⟩
    · unfold step tagged
      rw [hk]
      rfl
    · rw [R.waiting_succ_of_idle fun h => absurd h hno]
      exact houter
    · rw [htime, streamTime, if_neg hno]
  | some k =>
    cases hs : R.side n with
    | leftSide =>
      have hother : AssocMap.Filed R.place (R.arrived .rightSide (n + 1)) st.rightStore := by
        rw [arrived_succ]
        refine hright.congr fun i _ _ => ⟨Or.inr, fun hi => hi.resolve_left fun hi => ?_⟩
        rw [hs] at hi
        cases hi.2
      rw [← hs] at hleft
      obtain ⟨self', outer', evs, hp, hself, hholds, hem⟩ := R.process_spec hk hleft (by rw [hs]; exact hright) houter
      rw [hs] at hp hself
      refine ⟨⟨self', st.rightStore, outer', R.streamTime (n + 1)⟩, evs, ?_, ⟨hself, hother, hholds, rfl⟩, hem⟩
      unfold step tagged
      rw [hs, hk, htime]
      change process (leftConfig R.windows R.tagSpec) _ k _ = _ at hp
      simp only [tag, hp]
    | rightSide =>
      have hother : AssocMap.Filed R.place (R.arrived .leftSide (n + 1)) st.leftStore := by
        rw [arrived_succ]
        refine hleft.congr fun i _ _ => ⟨Or.inr, fun hi => hi.resolve_left fun hi => ?_⟩
        rw [hs] at hi
        cases hi.2
      rw [← hs] at hright
      obtain ⟨self', outer', evs, hp, hself, hholds, hem⟩ := R.process_spec hk hright (by rw [hs]; exact hleft) houter
      rw [hs] at hp hself
      refine ⟨⟨st.leftStore, self', outer', R.streamTime (n + 1)⟩, evs, ?_, ⟨hother, hself, hholds, rfl⟩, hem⟩
      unfold step tagged
      rw [hs, hk, htime]
      change process (rightConfig R.windows R.tagSpec) _ k _ = _ at hp
      simp only [tag, hp]

theorem inv_stateAt (n : ℕ) : R.Inv n (stateAt R.windows R.tagSpec R.tagged n) := by
  induction n with
  | zero => exact R.inv_init
  | succ n ih =>
    obtain ⟨st', evs, hstep, hinv, -⟩ := R.inv_step ih
    rw [stateAt, hstep]
    exact hinv

omit [LinearOrder K] in
@[simp] theorem stamp_value {V : Type} (n : ℕ) (e : Event) (v : V) : (R.stamp n e v).recordValue = v := by
  cases e <;> rfl

theorem outputsAt_tagged_eq (n : ℕ) :
    outputsAt R.windows R.tagSpec R.tagged n = (R.log n).map (fun e => R.stamp n e e) ∧ R.Emits n (R.log n) := by
  obtain ⟨st', evs, hstep, -, hem⟩ := R.inv_step (R.inv_stateAt n)
  have hout : outputsAt R.windows R.tagSpec R.tagged n = evs.map fun e => R.stamp n e e := by
    rw [outputsAt, hstep]
  have hlog : R.log n = evs := by
    rw [log, hout, List.map_map]
    simp [Function.comp_def]
  rw [hlog]
  exact ⟨hout, hem⟩

/-- The record that is emitted for an event. -/
def output (n : ℕ) (e : Event) : Option (Record K Vo) := (R.render e).map (R.stamp n e)

/-- **Every output is that of an event of the log, and every event has its output.** -/
theorem outputsAt_eq (n : ℕ) : (outputsAt R.windows R.spec R.arrivals n).map some = (R.log n).map (R.output n) := by
  have h := R.outputsAt_tagged n
  rw [(R.outputsAt_tagged_eq n).1] at h
  have hseq := congrArg (List.map fun r : Record K (Option Vo) =>
    r.recordValue.map fun v => (⟨r.recordKey, v, r.recordTimestamp, r.recordHeaders⟩ : Record K Vo)) h
  simp only [List.map_map] at hseq
  refine hseq.trans (List.map_congr_left fun e _ => ?_)
  unfold output
  cases e <;> rfl

/-! ## Semantics -/

/-- What a window join emits: `log n` is what the outputs of the `n`-th arrival are about. -/
structure Semantics (log : ℕ → List Event) : Prop where
  outputs : ∀ n, (outputsAt R.windows R.spec R.arrivals n).map some = (log n).map (R.output n)
  joined : ∀ l r n, .joined l r ∈ log n ↔
    n = max l r ∧ ¬ R.Late n ∧ R.side l = .leftSide ∧ R.side r = .rightSide ∧
      (∃ k, R.key l = some k ∧ R.key r = some k) ∧
      R.ts l - R.windows.beforeMs ≤ R.ts r ∧ R.ts r ≤ R.ts l + R.windows.afterMs
  /-- At once if the window had ended, else at the first arrival that closes it, if no
      match is earlier. -/
  unmatched : ∀ s i n, .unmatched s i ∈ log n ↔
    s = R.side i ∧ R.Unpaired i ∧
      (R.windowEnd i < R.streamTime (i + 1) ∧ n = i ∨
        R.streamTime (i + 1) ≤ R.windowEnd i ∧ i < n ∧ R.Closes i n ∧ ∀ j, i < j → j < n → ¬ R.Settles i j)
  /-- A window is closed by the arrival with which stream time passes its end and grace. -/
  passes : ∀ i n, (R.key n).isSome → R.windowEnd n + R.windows.gracePeriodMs < 2 ^ 63 →
    R.streamTime n ≤ R.windowEnd i + R.windows.gracePeriodMs →
    R.windowEnd i + R.windows.gracePeriodMs < R.streamTime (n + 1) → R.Closes i n
  nodup : ∀ n, (log n).Nodup
  once : ∀ e m n, e ∈ log m → e ∈ log n → m = n
  /-- Those released together come in timestamp order. -/
  together : ∀ n, (log n).Pairwise fun e e' =>
    ∀ s i s' j, e = .unmatched s i → e' = .unmatched s' j → R.ts i ≤ R.ts j
  /-- Those released apart come in the order of their windows' ends. -/
  apart : ∀ s i m s' j n, .unmatched s i ∈ log m → .unmatched s' j ∈ log n → i < m → j < n → m < n →
    R.windowEnd i < R.windowEnd j
  unmatched_first : ∀ l r m s i n, .joined l r ∈ log m → .unmatched s i ∈ log n → i = l ∨ i = r → n < m

omit [LinearOrder K] in
theorem pair_iff (hl : R.side l = .leftSide) (hr : R.side r = .rightSide) :
    R.Pair l r ↔ (∃ k, R.key l = some k ∧ R.key r = some k) ∧
      R.ts l - R.windows.beforeMs ≤ R.ts r ∧ R.ts r ≤ R.ts l + R.windows.afterMs := by
  unfold Pair windowEnd
  rw [hl, hr]
  simp only [ne_eq, reduceCtorEq, not_false_eq_true, true_and, JoinWindows.ahead, sub_le_iff_le_add]
  exact and_congr_right fun _ => and_comm

section

omit [LinearOrder K]

variable {m : ℕ} {evs : List Event}

theorem closes_of_passes (hk : (R.key n).isSome) (hfits : R.windowEnd n + R.windows.gracePeriodMs < 2 ^ 63)
    (h : R.streamTime n ≤ R.windowEnd i + R.windows.gracePeriodMs)
    (h' : R.windowEnd i + R.windows.gracePeriodMs < R.streamTime (n + 1)) : R.Closes i n := by
  have hst := R.streamTime_succ hk
  have hahead := (R.ahead_range (R.side n)).1
  have hgrace := R.windows.grace_range.1
  have hend : R.windowEnd n = R.ts n + R.windows.ahead (R.side n) := rfl
  refine ⟨hk, (R.not_late_iff hk).2 ⟨?_, hfits⟩, ?_, h'⟩
  · omega
  · omega

variable {R}

/-- An arrival emits a record that was held until then, or itself. -/
theorem Emits.unmatched_iff (h : R.Emits n evs) (s : Side) (i : ℕ) :
    .unmatched s i ∈ evs ↔
      s = R.side i ∧ R.Unpaired i ∧
        (R.windowEnd i < R.streamTime (i + 1) ∧ n = i ∨
          R.streamTime (i + 1) ≤ R.windowEnd i ∧ i < n ∧ R.Closes i n ∧ ∀ j, i < j → j < n → ¬ R.Settles i j) := by
  rw [h.unmatched]
  refine and_congr_right fun _ => ?_
  constructor
  · rintro (⟨⟨hlt, hu, hopen, hno⟩, hc⟩ | ⟨rfl, hu, hend⟩)
    · exact ⟨hu, Or.inr ⟨hopen, hlt, hc, hno⟩⟩
    · exact ⟨hu, Or.inl ⟨hend, rfl⟩⟩
  · rintro ⟨hu, ⟨hend, rfl⟩ | ⟨hopen, hlt, hc, hno⟩⟩
    · exact Or.inr ⟨rfl, hu, hend⟩
    · exact Or.inl ⟨⟨hlt, hu, hopen, hno⟩, hc⟩

theorem Emits.held (h : R.Emits n evs) {s : Side} (he : .unmatched s i ∈ evs) (hlt : i < n) :
    R.Held i n ∧ R.Closes i n :=
  ((h.unmatched s i).1 he).2.resolve_right fun hi => absurd hi.1 (by omega)

variable {evs' : List Event}

theorem Emits.once {e : Event} (h : R.Emits m evs) (h' : R.Emits n evs') (he : e ∈ evs)
    (he' : e ∈ evs') : m = n := by
  cases e with
  | joined l r => rw [((h.joined l r).1 he).1, ((h'.joined l r).1 he').1]
  | unmatched s i =>
    have hm := ((h.unmatched_iff s i).1 he).2.2
    have hn := ((h'.unmatched_iff s i).1 he').2.2
    rcases hm with ⟨hend, hm⟩ | ⟨hopen, hlt, hc, hno⟩ <;> rcases hn with ⟨hend', hn⟩ | ⟨hopen', hlt', hc', hno'⟩
    · rw [hm, hn]
    · omega
    · omega
    · rcases lt_trichotomy m n with hmn | hmn | hmn
      · exact absurd (Or.inr hc) (hno' m hlt hmn)
      · exact hmn
      · exact absurd (Or.inr hc') (hno n hlt' hmn)

/-- **What is released later has a later window.** -/
theorem Emits.apart {s s' : Side} (h : R.Emits m evs) (h' : R.Emits n evs')
    (he : .unmatched s i ∈ evs) (he' : .unmatched s' j ∈ evs') (hi : i < m) (hj : j < n) (hmn : m < n) :
    R.windowEnd i < R.windowEnd j := by
  obtain ⟨-, hk, hn, hts, hci⟩ := h.held he hi
  obtain ⟨⟨-, -, hopen, hno⟩, -⟩ := h'.held he' hj
  have hgrace := R.windows.grace_range.1
  rcases Nat.lt_or_ge j m with hjm | hjm
  · -- it was held already, and the scan of `m` left it
    have hleft : ¬ R.windowEnd j + R.windows.gracePeriodMs < R.streamTime (m + 1) := fun hcj =>
      hno m hjm hmn (Or.inr ⟨hk, hn, hts, hcj⟩)
    omega
  · have hmono : R.streamTime (m + 1) ≤ R.streamTime (j + 1) := R.streamTime_mono (by omega)
    omega

/-- **A record is never emitted unmatched after a match.** -/
theorem Emits.unmatched_first {s : Side} (h : R.Emits m evs) (h' : R.Emits n evs')
    (he : .joined l r ∈ evs) (he' : .unmatched s i ∈ evs') (hi : i = l ∨ i = r) : n < m := by
  obtain ⟨hmax, hn, hl, hr, hp⟩ := (h.joined l r).1 he
  have hne : l ≠ r := fun heq => hp.1 (by rw [heq])
  obtain ⟨j, hpj, hm, hij⟩ : ∃ j, R.Pair i j ∧ m = max i j ∧ i ≠ j := by
    rcases hi with rfl | rfl
    · exact ⟨r, hp, hmax, hne⟩
    · exact ⟨l, R.pair_comm.1 hp, by rw [hmax, max_comm], hne.symm⟩
  obtain ⟨-, hu, hwhen⟩ := (h'.unmatched_iff s i).1 he'
  have hlt : i < j := by
    rcases lt_or_gt_of_ne hij with hlt | hlt
    · exact hlt
    · exact absurd hpj (hu.2.2.2 j hlt)
  have hmj : m = j := by omega
  subst hmj
  rcases hwhen with ⟨-, rfl⟩ | ⟨-, hin, hc, hno⟩
  · exact hlt
  · rcases lt_trichotomy n m with hnm | rfl | hnm
    · exact hnm
    · -- a match is within the window that it would have closed
      have hgrace := R.windows.grace_range.1
      have hts := hc.2.2.1
      have hclosed := hc.2.2.2
      have hwithin := hpj.2.2.1
      omega
    · exact absurd (Or.inl ⟨hn, hpj⟩) (hno m hlt hnm)

end

end Run

/-! ## Short runs -/

/-- The windows of 10 ms to both sides. -/
def tenMs (grace : Fin 10) : JoinWindows where
  beforeMs := 10
  afterMs := 10
  gracePeriodMs := grace
  before_range := by omega
  after_range := by omega
  grace_range := by omega

/-- A window of 10 ms after a left record, and none before it. -/
def tenMsAfter : JoinWindows where
  beforeMs := 0
  afterMs := 10
  gracePeriodMs := 0
  before_range := by omega
  after_range := by omega
  grace_range := by omega

def leftJoin : WindowJoinSpec ℕ ℕ (Option ℕ × Option ℕ) where
  wjsJoin l r := (some l, some r)
  wjsLeftOnly := some fun l => (some l, none)
  wjsRightOnly := none

def outerJoin : WindowJoinSpec ℕ ℕ (Option ℕ × Option ℕ) where
  wjsJoin l r := (some l, some r)
  wjsLeftOnly := some fun l => (some l, none)
  wjsRightOnly := some fun r => (none, some r)

/-- Of key, value and timestamp. -/
def arrivalsOf (xs : List (ℕ × (ℕ ⊕ ℕ) × Int)) (n : ℕ) : Record ℕ (ℕ ⊕ ℕ) :=
  match xs.drop n with
  | [] => ⟨none, .inl 0, 0, []⟩
  | x :: _ => ⟨some x.1, x.2.1, x.2.2, []⟩

end Wireform.Kafka.Streams.WindowJoin
