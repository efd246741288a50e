/-
  Deletion vectors keep their positions.

  * `groupByHigh_positions`, `groupByHigh_containers`: the encoder's groups are containers;
  * `exists_entries`: the bitmap of a vector declares its buckets;
  * `roundTrip_iff`: a blob is read back exactly if its bitmap is shorter than 2^32 bytes;
  * `decodesExactly_iff`: a bitmap is read exactly if its last entry of each high key has all of them, in order.
-/
import Wireform.Iceberg.DeletionFormat
import Mathlib.Data.List.Perm.Subperm
import Mathlib.Data.Finset.Card
import Mathlib.Data.List.TakeWhile

namespace Wireform.Iceberg

/-! ## Groups -/

theorem groupByHighGo_flatten (ps : List (Nat × Nat)) :
    (groupByHighGo ps).flatMap (fun g => g.2.map fun l => (g.1, l)) = ps := by
  induction ps using groupByHighGo.induct with
  | case1 => rw [groupByHighGo, List.flatMap_nil]
  | case2 h l rest ih =>
    rw [groupByHighGo, List.flatMap_cons, ih, List.map_cons, List.map_map, List.cons_append]
    have hsame : (rest.takeWhile fun x => x.1 = h).map ((fun l => (h, l)) ∘ Prod.snd) =
        rest.takeWhile fun x => x.1 = h := by
      conv_rhs => rw [← List.map_id (rest.takeWhile fun x => x.1 = h)]
      refine List.map_congr_left fun x hx => ?_
      have heq := List.mem_takeWhile_imp hx
      rw [decide_eq_true_eq] at heq
      rw [← heq]
      rfl
    rw [hsame, List.takeWhile_append_dropWhile]

variable {ps : List (Nat × Nat)}

theorem groupByHighGo_nonempty : ∀ g ∈ groupByHighGo ps, 0 < g.2.length := by
  induction ps using groupByHighGo.induct with
  | case1 =>
    rw [groupByHighGo]
    exact fun _ hg => absurd hg List.not_mem_nil
  | case2 h l rest ih =>
    rw [groupByHighGo]
    exact List.forall_mem_cons.2 ⟨Nat.succ_pos _, ih⟩

theorem mem_of_group {g : Nat × List Nat} (hg : g ∈ groupByHighGo ps) {l : Nat} (hl : l ∈ g.2) :
    (g.1, l) ∈ ps := by
  rw [← groupByHighGo_flatten ps]
  exact List.mem_flatMap.2 ⟨g, hg, List.mem_map.2 ⟨l, hl, rfl⟩⟩

theorem lt_of_mem_dropWhile {h : Nat} (hsort : ps.Pairwise fun a b => a.1 ≤ b.1)
    (hle : ∀ p ∈ ps, h ≤ p.1) : ∀ p ∈ ps.dropWhile fun x => x.1 = h, h < p.1 := by
  induction ps with
  | nil => exact fun _ hp => absurd hp List.not_mem_nil
  | cons q ps ih =>
    obtain ⟨hq, hsort⟩ := List.pairwise_cons.1 hsort
    intro p hp
    rw [List.dropWhile_cons] at hp
    split_ifs at hp with heq
    · exact ih hsort (fun p hp => hle p (List.mem_cons_of_mem _ hp)) p hp
    · have hlt : h < q.1 := lt_of_le_of_ne (hle q List.mem_cons_self) fun h' => heq (by simp [h'])
      rcases List.mem_cons.1 hp with rfl | hp
      · exact hlt
      · exact hlt.trans_le (hq p hp)

theorem groupByHighGo_keys (hsort : ps.Pairwise fun a b => a.1 ≤ b.1) :
    ((groupByHighGo ps).map Prod.fst).Pairwise (· < ·) := by
  induction ps using groupByHighGo.induct with
  | case1 =>
    rw [groupByHighGo]
    exact List.Pairwise.nil
  | case2 h l rest ih =>
    obtain ⟨hle, hsort⟩ := List.pairwise_cons.1 hsort
    rw [groupByHighGo, List.map_cons, List.pairwise_cons]
    refine ⟨fun k hk => ?_, ih (hsort.sublist (List.dropWhile_sublist _))⟩
    obtain ⟨g, hg, rfl⟩ := List.mem_map.1 hk
    obtain ⟨l', hl'⟩ := List.exists_mem_of_length_pos (groupByHighGo_nonempty g hg)
    exact lt_of_mem_dropWhile hsort hle _ (mem_of_group hg hl')

theorem length_le_of_ascends {xs : List Nat} {n : Nat} (h : xs.Pairwise (· < ·)) (hlt : ∀ x ∈ xs, x < n) :
    xs.length ≤ n := by
  have hnodup : xs.Nodup := h.imp fun {_ _} hlt => hlt.ne
  simpa using (List.subperm_of_subset hnodup fun x hx => List.mem_range.2 (hlt x hx)).length_le

section
variable {set : IntSet}

/-- The groups hold the positions, in their order. -/
theorem groupByHigh_positions (set : IntSet) :
    (groupByHigh set).flatMap (fun g => g.2.map fun low => g.1 * 0x10000 + low) = set := by
  have h := congrArg (List.map fun p : Nat × Nat => p.1 * 0x10000 + p.2)
    (groupByHighGo_flatten (set.map fun x => (x / 2 ^ 16, x % 2 ^ 16)))
  rw [List.map_flatMap, List.map_map] at h
  simp only [List.map_map, Function.comp_def] at h
  rw [groupByHigh, h]
  exact List.map_id'' (fun x => by omega) set

theorem groupByHigh_keys (h : OrderedSet.Ascends set) : ((groupByHigh set).map Prod.fst).Pairwise (· < ·) := by
  refine groupByHighGo_keys (List.pairwise_map.2 (h.imp fun {x y} hlt => ?_))
  exact Nat.div_le_div_right hlt.le

theorem mem_groupByHigh {g : Nat × List Nat} (hg : g ∈ groupByHigh set) {low : Nat} (hl : low ∈ g.2) :
    ∃ x ∈ set, g.1 = x / 2 ^ 16 ∧ low = x % 2 ^ 16 := by
  obtain ⟨x, hx, heq⟩ := List.mem_map.1 (mem_of_group hg hl)
  injection heq with h1 h2
  exact ⟨x, hx, h1.symm, h2.symm⟩

theorem group_ascends (h : OrderedSet.Ascends set) {g : Nat × List Nat} (hg : g ∈ groupByHigh set) :
    g.2.Pairwise (· < ·) := by
  have hsub : (g.2.map fun low => g.1 * 0x10000 + low).Sublist set := by
    conv_rhs => rw [← groupByHigh_positions set]
    rw [List.flatMap_def]
    exact List.sublist_flatten_of_mem (List.mem_map.2 ⟨g, hg, rfl⟩)
  exact (List.pairwise_map.1 (h.sublist hsub)).imp fun {_ _} hlt => by omega

/-- **The groups of a set are containers.** -/
theorem groupByHigh_containers (h : OrderedSet.Ascends set) (hlt : ∀ x ∈ set, x < 2 ^ 32) :
    ∃ cs : List Container, cs.map (fun c => (c.key, c.lows)) = groupByHigh set := by
  have hgroup : ∀ g ∈ groupByHigh set, ∃ c : Container, (c.key, c.lows) = g := by
    intro g hg
    have hnonempty := groupByHighGo_nonempty g hg
    obtain ⟨l, hl⟩ := List.exists_mem_of_length_pos hnonempty
    obtain ⟨x, hx, hkey, -⟩ := mem_groupByHigh hg hl
    have hx := hlt x hx
    have hlows : ∀ low ∈ g.2, low < 2 ^ 16 := by
      intro low hlow
      obtain ⟨y, -, -, rfl⟩ := mem_groupByHigh hg hlow
      exact Nat.mod_lt _ (by decide)
    exact ⟨⟨g.1, g.2, by omega, hnonempty, length_le_of_ascends (group_ascends h hg) hlows, hlows⟩, rfl⟩
  generalize groupByHigh set = gs at hgroup
  induction gs with
  | nil => exact ⟨[], rfl⟩
  | cons g gs ih =>
    obtain ⟨cs, hcs⟩ := ih fun g' hg' => hgroup g' (List.mem_cons_of_mem _ hg')
    obtain ⟨c, hc⟩ := hgroup g List.mem_cons_self
    exact ⟨c :: cs, by rw [List.map_cons, hc, hcs]⟩

end

theorem length_words (k : Nat) (xs : List Nat) : (xs.flatMap (leBytes k)).length = k * xs.length := by
  simp [List.length_flatMap, Nat.mul_comm]

theorem length_computeOffsetsGo (o : Nat) (gs : List (Nat × List Nat)) :
    (computeOffsetsGo o gs).length = gs.length := by
  induction gs generalizing o with
  | nil => rfl
  | cons g gs ih =>
    rw [computeOffsetsGo, List.length_cons, ih, List.length_cons]

/-! ## The entries of a vector -/

/-- An entry with the bytes and the positions of a bucket, every container in ascending order. -/
structure Encodes (b : Int × IntSet) (e : Entry) : Prop where
  high : (e.high : Int) = b.1
  bytes : e.bytes = leBytes 4 (b.1 % 2 ^ 32).toNat ++ encodeRoaring32 b.2
  positions : e.bitmap.positions = b.2
  ascends : ∀ c ∈ e.bitmap.containers, c.lows.Pairwise (· ≤ ·)

theorem exists_entry {b : Int × IntSet} (h : IsBucket b) : ∃ e, Encodes b e := by
  obtain ⟨hi, hhi⟩ := Int.eq_ofNat_of_zero_le h.high.1
  have hlt := h.high.2
  obtain ⟨cs, hcs⟩ := groupByHigh_containers h.ascends h.low
  have hlen : cs.length = (groupByHigh b.2).length := by rw [← hcs, List.length_map]
  have hcount : cs.length ≤ 2 ^ 16 := by
    rw [hlen, ← List.length_map Prod.fst]
    refine length_le_of_ascends (groupByHigh_keys h.ascends) fun k hk => ?_
    rw [← hcs, List.map_map] at hk
    obtain ⟨c, -, rfl⟩ := List.mem_map.1 hk
    exact c.key_lt
  have hoffs : ((computeOffsets (groupByHigh b.2).length (groupByHigh b.2)).flatMap (leBytes 4)).length =
      4 * cs.length := by
    rw [length_words, computeOffsets, length_computeOffsetsGo, hlen]
  have hhigh : (b.1 % 2 ^ 32).toNat = hi := by omega
  have hrow : (groupByHigh b.2).flatMap (fun g => leBytes 2 g.1 ++ leBytes 2 (g.2.length - 1)) =
      cs.flatMap Container.row := by
    rw [← hcs, List.flatMap_map]
    rfl
  have hpayload : (groupByHigh b.2).flatMap (fun g => g.2.flatMap (leBytes 2)) = cs.flatMap Container.payload := by
    rw [← hcs, List.flatMap_map]
    rfl
  refine ⟨⟨hi, by omega, ⟨0x3B30, cs, _, by decide, by decide, by omega, hoffs⟩⟩, hhi.symm, ?_, ?_, ?_⟩
  · rw [hhigh, encodeRoaring32]
    simp only [hrow, hpayload, ← hlen, List.append_assoc]
    rfl
  · rw [Roaring32.positions]
    conv_rhs => rw [← groupByHigh_positions b.2, ← hcs, List.flatMap_map]
    rfl
  · intro c hc
    have hg : (c.key, c.lows) ∈ groupByHigh b.2 := hcs ▸ List.mem_map.2 ⟨c, hc, rfl⟩
    exact (group_ascends h.ascends hg).imp fun {_ _} hlt => hlt.le

theorem exists_entries {bs : List (Int × IntSet)} (h : ∀ b ∈ bs, IsBucket b) : ∃ es, List.Forall₂ Encodes bs es := by
  induction bs with
  | nil => exact ⟨[], .nil⟩
  | cons b bs ih =>
    obtain ⟨es, hes⟩ := ih fun b' hb' => h b' (List.mem_cons_of_mem _ hb')
    obtain ⟨e, he⟩ := exists_entry (h b List.mem_cons_self)
    exact ⟨e :: es, .cons he hes⟩

theorem flatMap_bytes {bs : List (Int × IntSet)} {es : List Entry} (h : List.Forall₂ Encodes bs es) :
    es.flatMap Entry.bytes = bs.flatMap fun b => leBytes 4 (b.1 % 2 ^ 32).toNat ++ encodeRoaring32 b.2 := by
  induction h with
  | nil => rfl
  | cons he _ ih => rw [List.flatMap_cons, List.flatMap_cons, he.bytes, ih]

/-! ## Sets and buckets that are read -/

section
variable {fromAscList : List Nat → IntSet}

theorem mem_setOf {x : Nat} {cs : List Container} {acc : IntSet} :
    x ∈ setOf fromAscList cs acc ↔ x ∈ acc ∨ ∃ c ∈ cs, x ∈ fromAscList c.positions := by
  induction cs generalizing acc with
  | nil => simp [setOf]
  | cons c cs ih =>
    change x ∈ setOf fromAscList cs (OrderedSet.union acc (fromAscList c.positions)) ↔ _
    rw [ih, OrderedSet.mem_union, List.exists_mem_cons_iff, or_assoc]

theorem ascends_setOf {cs : List Container} {acc : IntSet} (h : OrderedSet.Ascends acc) :
    OrderedSet.Ascends (setOf fromAscList cs acc) := by
  induction cs generalizing acc with
  | nil => exact h
  | cons c cs ih => exact ih (h.union _)

theorem positions_pairwise {c : Container} : c.positions.Pairwise (· ≤ ·) ↔ c.lows.Pairwise (· ≤ ·) := by
  rw [Container.positions, List.pairwise_map]
  simp

/-- With ascending containers the set has the declared positions. -/
theorem mem_setOf_positions (hf : BuildsAscending fromAscList) {b : Roaring32}
    (h : ∀ c ∈ b.containers, c.lows.Pairwise (· ≤ ·)) {x : Nat} :
    x ∈ setOf fromAscList b.containers [] ↔ x ∈ b.positions := by
  have hc : ∀ c ∈ b.containers, (x ∈ fromAscList c.positions ↔ x ∈ c.positions) := fun c hc => by
    rw [hf _ (positions_pairwise.2 (h c hc)), OrderedSet.mem_fromList]
  rw [mem_setOf, Roaring32.positions, List.mem_flatMap]
  simp only [List.not_mem_nil, false_or]
  exact exists_congr fun c => and_congr_right fun h => hc c h

theorem bucketsOf_eq (es : List Entry) : bucketsOf fromAscList es [] =
    AssocMap.fromList (es.map fun e => ((e.high : Int), setOf fromAscList e.bitmap.containers [])) := by
  rw [bucketsOf, AssocMap.fromList, List.foldl_map]

theorem fromList_ascending {m : AssocMap Int IntSet} (h : AssocMap.Ascending m) : AssocMap.fromList m = m := by
  refine (AssocMap.ascending_fromList m).ext h fun k => Option.ext fun v => ?_
  constructor
  · exact fun hv => (h.mem_iff k v).1 (AssocMap.mem_of_lookup_fromList hv)
  · exact fun hv => AssocMap.lookup_fromList_of_mem h.nodup_keys (AssocMap.mem_of_lookup hv)

theorem Encodes.setOf_eq (hf : BuildsAscending fromAscList) {b : Int × IntSet} {e : Entry} (h : Encodes b e)
    (hb : IsBucket b) : setOf fromAscList e.bitmap.containers [] = b.2 :=
  (ascends_setOf OrderedSet.ascends_nil).ext hb.ascends fun x => by rw [mem_setOf_positions hf h.ascends, h.positions]

variable {dv : DeletionVector}

/-- The entries of a vector are read back to its buckets. -/
theorem bucketsOf_encodes (hf : BuildsAscending fromAscList) (hv : dv.Valid) {es : List Entry}
    (h : List.Forall₂ Encodes dv.dvBuckets es) : bucketsOf fromAscList es [] = dv.dvBuckets := by
  have hmap : es.map (fun e => ((e.high : Int), setOf fromAscList e.bitmap.containers [])) = dv.dvBuckets := by
    have hb := hv.buckets
    generalize dv.dvBuckets = bs at h hb
    induction h with
    | nil => rfl
    | cons he _ ih =>
      rw [List.map_cons, ih fun b hmem => hb b (List.mem_cons_of_mem _ hmem), he.high,
        he.setOf_eq hf (hb _ List.mem_cons_self)]
  rw [bucketsOf_eq, hmap, fromList_ascending hv.ascends]

/-! ## Blobs -/

theorem leBytes_mod (k n : Nat) : leBytes k (n % 256 ^ k) = leBytes k n :=
  (eq_leBytes (length_leBytes k n) (leValue_leBytes k n)).symm

theorem leBytes_inj {k n n' : Nat} (h : n < 256 ^ k) (h' : n' < 256 ^ k) (heq : leBytes k n = leBytes k n') :
    n = n' := by
  rw [← Nat.mod_eq_of_lt h, ← Nat.mod_eq_of_lt h', ← leValue_leBytes, ← leValue_leBytes, heq]

/-- Entries end where they end, whatever is declared. -/
theorem entries_rest {es es' : List Entry} {r r' : ByteString} (hlen : es.length = es'.length)
    (h : es.flatMap Entry.bytes ++ r = es'.flatMap Entry.bytes ++ r') : r = r' := by
  induction es generalizing es' with
  | nil =>
    obtain rfl := List.length_eq_zero_iff.1 hlen.symm
    exact h
  | cons e es ih =>
    cases es' with
    | nil => cases hlen
    | cons e' es' =>
      simp only [List.flatMap_cons, Entry.bytes, List.append_assoc] at h
      have hbitmap := (List.append_inj h (by simp)).2
      have h1 := decodeRoaring32C_bytes OrderedSet.fromList e.bitmap (es.flatMap Entry.bytes ++ r)
      rw [hbitmap, decodeRoaring32C_bytes] at h1
      injection h1 with h1
      injection h1 with _ h1
      exact ih (Nat.succ.inj hlen) h1.symm

/-- **A blob is read back exactly if the length of its bitmap fits its field.** -/
theorem roundTrip_iff (hf : BuildsAscending fromAscList) (hv : dv.Valid)
    (hcount : dv.dvBuckets.length < 2 ^ 64) (snapId seqNum fieldId : Int) :
    fromPuffinBlob fromAscList (toPuffinBlob snapId seqNum fieldId dv) = .ok dv ↔ (encodeDV dv).length < 2 ^ 32 := by
  obtain ⟨es, hes⟩ := exists_entries hv.buckets
  have henc : encodeDV dv = leBytes 8 es.length ++ (es.flatMap Entry.bytes ++ []) := by
    rw [encodeDV, flatMap_bytes hes, hes.length_eq, List.append_nil]
  have hes64 : es.length < 2 ^ 64 := hes.length_eq ▸ hcount
  have hread : decodeDV fromAscList (encodeDV dv) = .ok dv :=
    (decodeDV_ok fromAscList).2 ⟨es, ⟨hes64, [], henc⟩, by rw [bucketsOf_encodes hf hv hes]⟩
  have hblob : fromPuffinBlob fromAscList (toPuffinBlob snapId seqNum fieldId dv) = decodeDV fromAscList
      ((encodeDV dv ++ leBytes 4 (crc32c (encodeDV dv)).toNat).take ((encodeDV dv).length % 256 ^ 4)) := by
    have hlen : takeWord32LE (toPuffinBlob snapId seqNum fieldId dv).pbData = .ok ((encodeDV dv).length % 256 ^ 4, _) :=
      takeWord32LE_ok.2 ⟨Nat.mod_lt _ (by decide), by rw [leBytes_mod]; exact List.append_assoc _ _ _⟩
    rw [fromPuffinBlob, hlen]
    rfl
  rw [hblob]
  constructor
  · intro h
    by_contra hlong
    have hlt : (encodeDV dv).length % 256 ^ 4 < (encodeDV dv).length := by omega
    generalize (encodeDV dv).length % 256 ^ 4 = m at h hlt
    rw [List.take_append_of_le_length hlt.le] at h
    obtain ⟨es', ⟨hes', rest, htake⟩, -⟩ := (decodeDV_ok fromAscList).1 h
    have hsplit := List.take_append_drop m (encodeDV dv)
    rw [htake, List.append_assoc, List.append_assoc] at hsplit
    conv_rhs at hsplit => rw [henc]
    obtain ⟨hcnt, hrest⟩ := List.append_inj hsplit (by simp)
    have hnil := entries_rest (leBytes_inj hes' hes64 hcnt) hrest
    have hdrop := (List.append_eq_nil_iff.1 hnil).2
    rw [List.drop_eq_nil_iff] at hdrop
    omega
  · intro h
    have h' : (encodeDV dv).length < 256 ^ 4 := h
    rw [Nat.mod_eq_of_lt h', List.take_left, hread]

/-! ## The length of a bitmap -/

/-- The bits above the 16 lowest of the positions, one for each container. -/
def containerKeys (dv : DeletionVector) : List Int :=
  dv.dvBuckets.flatMap fun b => (groupByHigh b.2).map fun g => b.1 * 2 ^ 16 + (g.1 : Int)

theorem length_encodeRoaring32 (set : IntSet) :
    (encodeRoaring32 set).length = 8 + 8 * (groupByHigh set).length + 2 * set.length := by
  have hpos := congrArg List.length (groupByHigh_positions set)
  have hrow : ((groupByHigh set).flatMap fun g => leBytes 2 g.1 ++ leBytes 2 (g.2.length - 1)).length =
      4 * (groupByHigh set).length := by
    simp [List.length_flatMap, Nat.mul_comm]
  have hoff : ((computeOffsets (groupByHigh set).length (groupByHigh set)).flatMap (leBytes 4)).length =
      4 * (groupByHigh set).length := by
    rw [length_words, computeOffsets, length_computeOffsetsGo]
  have hpay : ((groupByHigh set).flatMap fun g => g.2.flatMap (leBytes 2)).length =
      2 * ((groupByHigh set).flatMap fun g => g.2.map fun low => g.1 * 0x10000 + low).length := by
    generalize groupByHigh set = gs
    induction gs with
    | nil => rfl
    | cons g gs ih =>
      rw [List.flatMap_cons, List.flatMap_cons, List.length_append, List.length_append, ih, length_words,
        List.length_map, Nat.mul_add]
  rw [hpos] at hpay
  rw [encodeRoaring32]
  simp only [List.length_append, length_leBytes, hrow, hoff, hpay]
  omega

theorem length_encodeDV (dv : DeletionVector) : (encodeDV dv).length =
    8 + 12 * dv.dvBuckets.length + 8 * (containerKeys dv).length + 2 * (deletedPositions dv).length := by
  rw [encodeDV, containerKeys, deletedPositions, List.length_append, length_leBytes]
  induction dv.dvBuckets with
  | nil => rfl
  | cons b bs ih =>
    simp only [List.flatMap_cons, List.length_append, List.length_map, List.length_cons, length_leBytes,
      length_encodeRoaring32] at ih ⊢
    omega

/-- The bytes of the bitmap of some positions: 8 for the count, 12 for each high key, 8 for each container and two
    for each position. -/
def bitmapSize (ps : List Int) : Nat :=
  8 + 12 * (ps.toFinset.image fun p => p / 2 ^ 32).card + 8 * (ps.toFinset.image fun p => p / 2 ^ 16).card +
    2 * ps.toFinset.card

theorem mem_deletedPositions_iff (h : dv.Valid) {p : Int} :
    p ∈ deletedPositions dv ↔ ∃ b ∈ dv.dvBuckets, ∃ lo ∈ b.2, b.1 * 2 ^ 32 + (lo : Int) = p := by
  rw [deletedPositions_eq h]
  simp only [List.mem_flatMap, List.mem_map]

theorem keys_toFinset (h : dv.Valid) :
    (dv.dvBuckets.map Prod.fst).toFinset = (deletedPositions dv).toFinset.image fun p => p / 2 ^ 32 := by
  ext k
  simp only [List.mem_toFinset, Finset.mem_image, mem_deletedPositions_iff h, List.mem_map]
  constructor
  · rintro ⟨b, hb, rfl⟩
    obtain ⟨lo, hlo⟩ := List.exists_mem_of_ne_nil _ (h.buckets b hb).nonempty
    have := (h.buckets b hb).low lo hlo
    exact ⟨_, ⟨b, hb, lo, hlo, rfl⟩, by omega⟩
  · rintro ⟨_, ⟨b, hb, lo, hlo, rfl⟩, rfl⟩
    have := (h.buckets b hb).low lo hlo
    exact ⟨b, hb, by omega⟩

theorem containerKeys_toFinset (h : dv.Valid) :
    (containerKeys dv).toFinset = (deletedPositions dv).toFinset.image fun p => p / 2 ^ 16 := by
  ext k
  simp only [List.mem_toFinset, Finset.mem_image, mem_deletedPositions_iff h, containerKeys, List.mem_flatMap,
    List.mem_map]
  constructor
  · rintro ⟨b, hb, g, hg, rfl⟩
    obtain ⟨l, hl⟩ := List.exists_mem_of_length_pos (groupByHighGo_nonempty g hg)
    obtain ⟨lo, hlo, hkey, -⟩ := mem_groupByHigh hg hl
    exact ⟨_, ⟨b, hb, lo, hlo, rfl⟩, by omega⟩
  · rintro ⟨_, ⟨b, hb, lo, hlo, rfl⟩, rfl⟩
    rw [← groupByHigh_positions b.2] at hlo
    obtain ⟨g, hg, hlo⟩ := List.mem_flatMap.1 hlo
    obtain ⟨low, hlow, rfl⟩ := List.mem_map.1 hlo
    obtain ⟨x, -, -, rfl⟩ := mem_groupByHigh hg hlow
    exact ⟨b, hb, g, hg, by omega⟩

theorem containerKeys_ascends (h : dv.Valid) : (containerKeys dv).Pairwise (· < ·) := by
  have hkey : ∀ b ∈ dv.dvBuckets, ∀ g ∈ groupByHigh b.2, g.1 < 2 ^ 16 := by
    intro b hb g hg
    obtain ⟨l, hl⟩ := List.exists_mem_of_length_pos (groupByHighGo_nonempty g hg)
    obtain ⟨lo, hlo, hkey, -⟩ := mem_groupByHigh hg hl
    have := (h.buckets b hb).low lo hlo
    omega
  rw [containerKeys, List.pairwise_flatMap]
  constructor
  · intro b hb
    have hasc := List.pairwise_map.1 (groupByHigh_keys (h.buckets b hb).ascends)
    exact List.pairwise_map.2 (hasc.imp fun {_ _} hlt => by omega)
  · refine h.ascends.imp_of_mem fun {b b'} hb _ hlt x hx y hy => ?_
    obtain ⟨g, hg, rfl⟩ := List.mem_map.1 hx
    obtain ⟨g', -, rfl⟩ := List.mem_map.1 hy
    have := hkey b hb g hg
    omega

/-- **The length of the bitmap of a vector**, by its positions. -/
theorem length_encodeDV_positions (h : dv.Valid) :
    (encodeDV dv).length = bitmapSize (deletedPositions dv) := by
  have hcard : ∀ {xs : List Int}, xs.Pairwise (· < ·) → xs.toFinset.card = xs.length := fun hxs =>
    List.toFinset_card_of_nodup (hxs.imp fun {_ _} hlt => hlt.ne)
  have hkeys : (dv.dvBuckets.map Prod.fst).Pairwise (· < ·) := List.pairwise_map.2 h.ascends
  rw [length_encodeDV, bitmapSize, ← keys_toFinset h, ← containerKeys_toFinset h, hcard hkeys,
    hcard (containerKeys_ascends h), hcard (deletedPositions_ascends h), List.length_map]

theorem length_buckets (h : dv.Valid) : dv.dvBuckets.length < 2 ^ 64 := by
  have hle : (dv.dvBuckets.map fun b => b.1.toNat).length ≤ 2 ^ 31 := by
    refine length_le_of_ascends (List.pairwise_map.2 (h.ascends.imp_of_mem fun {b b'} hb hb' hlt => ?_)) fun k hk => ?_
    · have := (h.buckets b hb).high
      omega
    · obtain ⟨b, hb, rfl⟩ := List.mem_map.1 hk
      have := (h.buckets b hb).high
      omega
  rw [List.length_map] at hle
  omega

/-! ## What is read of any bitmap -/

/-- The vector has the position with these high and low bits. -/
def DeletionVector.Has (dv : DeletionVector) (hi : Int) (lo : Nat) : Prop :=
  ∃ set, AssocMap.lookup hi dv.dvBuckets = some set ∧ lo ∈ set

variable (fromAscList) in
/-- A vector that is decoded has exactly the positions that the bytes declare. -/
def DecodesExactly (bs : ByteString) : Prop :=
  ∀ dv, decodeDV fromAscList bs = .ok dv → ∀ es, Declares bs es → ∀ hi lo,
    dv.Has hi lo ↔ ∃ e ∈ es, (e.high : Int) = hi ∧ lo ∈ e.bitmap.positions

/-- The last entry of a high key has ascending containers, with all positions of the earlier entries of the key. -/
def LastHasAll (es : List Entry) : Prop :=
  ∀ l₁ e l₂, es = l₁ ++ e :: l₂ → (∀ d ∈ l₂, d.high ≠ e.high) →
    (∀ c ∈ e.bitmap.containers, c.lows.Pairwise (· ≤ ·)) ∧
      ∀ d ∈ l₁, d.high = e.high → ∀ lo ∈ d.bitmap.positions, lo ∈ e.bitmap.positions

/-- The last entry of the key of some entry. -/
theorem exists_last {es : List Entry} {e : Entry} (he : e ∈ es) : ∃ l₁ e' l₂, es = l₁ ++ e' :: l₂ ∧ e'.high = e.high ∧
    ∀ d ∈ l₂, d.high ≠ e'.high := by
  induction es using List.reverseRecOn with
  | nil => cases he
  | append_singleton es d ih =>
    by_cases hd : d.high = e.high
    · exact ⟨es, d, [], rfl, hd, fun _ h => absurd h List.not_mem_nil⟩
    · have he' : e ∈ es := by
        rcases List.mem_append.1 he with he | he
        · exact he
        · exact absurd (congrArg Entry.high (List.mem_singleton.1 he)).symm hd
      obtain ⟨l₁, e', l₂, rfl, hhigh, hlast⟩ := ih he'
      refine ⟨l₁, e', l₂ ++ [d], by simp, hhigh, fun d' hd' => ?_⟩
      rcases List.mem_append.1 hd' with hd' | hd'
      · exact hlast d' hd'
      · rw [List.mem_singleton.1 hd', hhigh]
        exact hd

theorem lookup_bucketsOf {l₁ l₂ : List Entry} {e : Entry} (h : ∀ d ∈ l₂, d.high ≠ e.high) :
    AssocMap.lookup (e.high : Int) (bucketsOf fromAscList (l₁ ++ e :: l₂) []) =
      some (setOf fromAscList e.bitmap.containers []) := by
  rw [bucketsOf_eq, AssocMap.fromList, List.map_append, List.foldl_append, List.map_cons, List.foldl_cons,
    AssocMap.lookup_foldl_insert_of_not_mem, AssocMap.lookup_insert, if_pos rfl]
  intro b hb
  obtain ⟨d, hd, rfl⟩ := List.mem_map.1 hb
  exact fun heq => h d hd (Int.natCast_inj.1 heq)

/-- The set under a high key is that of the last entry with this key. -/
theorem has_bucketsOf {es : List Entry} {hi : Int} {lo : Nat} :
    (DeletionVector.mk (bucketsOf fromAscList es [])).Has hi lo ↔ ∃ l₁ e l₂, es = l₁ ++ e :: l₂ ∧ (e.high : Int) = hi ∧
      (∀ d ∈ l₂, d.high ≠ e.high) ∧ lo ∈ setOf fromAscList e.bitmap.containers [] := by
  constructor
  · rintro ⟨set, hset, hlo⟩
    have hmem := hset
    simp only [bucketsOf_eq] at hmem
    obtain ⟨e, he, heq⟩ := List.mem_map.1 (AssocMap.mem_of_lookup_fromList hmem)
    injection heq with h1 _
    obtain ⟨l₁, e', l₂, rfl, hhigh, hlast⟩ := exists_last he
    rw [← hhigh] at h1
    dsimp only at hset
    rw [← h1, lookup_bucketsOf hlast] at hset
    exact ⟨l₁, e', l₂, rfl, h1, hlast, Option.some.inj hset ▸ hlo⟩
  · rintro ⟨l₁, e, l₂, rfl, rfl, hlast, hlo⟩
    exact ⟨_, lookup_bucketsOf hlast, hlo⟩

theorem positions_lt {b : Roaring32} {lo : Nat} (h : lo ∈ b.positions) : lo < 2 ^ 32 := by
  obtain ⟨c, -, hlo⟩ := List.mem_flatMap.1 h
  obtain ⟨low, hlow, rfl⟩ := List.mem_map.1 hlo
  have := c.lows_lt low hlow
  have := c.key_lt
  omega

/-- Nothing is lost of bytes with this condition. -/
theorem LastHasAll.exact (hf : BuildsAscending fromAscList) {bs : ByteString}
    (h : ∀ es, Declares bs es → LastHasAll es) : DecodesExactly fromAscList bs := by
  intro dv hdv es hes hi lo
  rw [(decodeDV_ok fromAscList).2 ⟨es, hes, rfl⟩] at hdv
  obtain rfl := Except.ok.inj hdv
  rw [has_bucketsOf]
  constructor
  · rintro ⟨l₁, e, l₂, heq, hhi, hlast, hlo⟩
    have hasc := (h es hes l₁ e l₂ heq hlast).1
    rw [mem_setOf_positions hf hasc] at hlo
    exact ⟨e, heq ▸ List.mem_append_right _ List.mem_cons_self, hhi, hlo⟩
  · rintro ⟨d, hd, hhi, hlo⟩
    obtain ⟨l₁, e, l₂, rfl, hhigh, hlast⟩ := exists_last hd
    obtain ⟨hasc, hall⟩ := h _ hes l₁ e l₂ rfl hlast
    refine ⟨l₁, e, l₂, rfl, by rw [hhigh, hhi], hlast, (mem_setOf_positions hf hasc).2 ?_⟩
    rcases List.mem_append.1 hd with hd | hd
    · exact hall d hd hhigh.symm lo hlo
    · rcases List.mem_cons.1 hd with rfl | hd
      · exact hlo
      · exact absurd hhigh.symm (hlast d hd)

/-- A function as documented, that returns something else for a list out of order. -/
def strayList (xs : List Nat) : IntSet := if xs.Pairwise (· ≤ ·) then OrderedSet.fromList xs else [2 ^ 32]

theorem strayList_builds : BuildsAscending strayList := fun _ h => if_pos h

/-- **A bitmap is read exactly**, whatever `fromAscList` does out of order, if and only if the last entry of each high
    key has ascending containers and all positions of its key. -/
theorem decodesExactly_iff (bs : ByteString) :
    (∀ f, BuildsAscending f → DecodesExactly f bs) ↔ ∀ es, Declares bs es → LastHasAll es := by
  refine ⟨fun h es hes l₁ e l₂ heq hlast => ⟨fun c hc => ?_, fun d hd hhigh lo hlo => ?_⟩,
    fun h f hf => LastHasAll.exact hf h⟩
  · by_contra hasc
    have hstray : 2 ^ 32 ∈ setOf strayList e.bitmap.containers [] := by
      rw [mem_setOf]
      refine Or.inr ⟨c, hc, ?_⟩
      rw [strayList, if_neg fun h => hasc (positions_pairwise.1 h)]
      exact List.mem_cons_self
    have hhas := has_bucketsOf.2 ⟨l₁, e, l₂, heq, rfl, hlast, hstray⟩
    obtain ⟨d, -, -, hd⟩ := (h strayList strayList_builds _ ((decodeDV_ok _).2 ⟨es, hes, rfl⟩) es hes _ _).1 hhas
    exact absurd (positions_lt hd) (lt_irrefl _)
  · have hf : BuildsAscending OrderedSet.fromList := fun _ _ => rfl
    have hmem : d ∈ es := heq ▸ List.mem_append_left _ hd
    have hhas := (h _ hf _ ((decodeDV_ok _).2 ⟨es, hes, rfl⟩) es hes e.high lo).2 ⟨d, hmem, by rw [hhigh], hlo⟩
    obtain ⟨set, hset, hlo⟩ := hhas
    subst heq
    dsimp only at hset
    rw [lookup_bucketsOf hlast] at hset
    obtain rfl := Option.some.inj hset
    obtain ⟨c, hc, hlo⟩ := (mem_setOf.1 hlo).resolve_left List.not_mem_nil
    exact List.mem_flatMap.2 ⟨c, hc, OrderedSet.mem_fromList.1 hlo⟩

/-- A bitmap with one row, under the high key 0. -/
def rowEntry (low : Nat) (h : low < 2 ^ 16) : Entry :=
  ⟨0, by decide, ⟨0x3B30, [⟨0, [low], by decide, by simp, by simp, by simpa using h⟩], [0, 0, 0, 0], by decide,
    by decide, (by decide : 1 < 2 ^ 32), rfl⟩⟩

def repeatedKey : ByteString :=
  leBytes 8 2 ++ ([rowEntry 5 (by decide), rowEntry 7 (by decide)].flatMap Entry.bytes ++ [])

theorem repeatedKey_declares : Declares repeatedKey [rowEntry 5 (by decide), rowEntry 7 (by decide)] :=
  ⟨by decide, [], rfl⟩

end

end Wireform.Iceberg
