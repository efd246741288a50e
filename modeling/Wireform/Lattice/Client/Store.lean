/-
  The entity store of a client (`Lattice.Client.Store`).

  Entities are kept for each reference and contributing source, with the version of the
  source and the fields that it carried; tombstones, stale keys and gaps are sets.

  * `applyRecord`, `applyRecords`: one record, and a stream of them;
  * `deliveries`, `delivered`: what a stream said of an entity and a source since the last
    tombstone, and what of it is still current;
  * `held_applyRecords`: the store holds exactly what is current;
  * `merge_exact`: with the rest of what a merge keeps;
  * `redelivery_held`: a stream that is delivered twice.
-/
import Mathlib.Data.Finset.Insert
import Mathlib.Data.Prod.Lex
import Mathlib.Data.String.Basic
import Mathlib.Order.WithBot
import Wireform.Filing

namespace Wireform.Lattice.Client

variable {V : Type}

/-- The type of an entity, and its key. -/
abbrev Ref := String ×ₗ String

/-- Where a contribution comes from; `⊥` is the untagged slot. -/
abbrev Src := WithBot String

abbrev SurrogateKey := String

structure EntityRecord (V : Type) where
  erId : Ref
  erVer : String
  erFields : AssocMap String V
  erSrc : Src

/-- The kinds of records, with what the store takes from them. -/
inductive Record (V : Type) where
  | manifest
  | entity (er : EntityRecord V)
  | tombstone (ref : Ref) (ver : String)
  | elided (ref : Ref)
  | unchanged (ref : Ref) (ver : String)
  | error
  | invalidated (keys : List SurrogateKey)
  | finished
  | plan
  | reauth
  | unknown (kind : String)

/-- A version and its fields. -/
abbrev StoredEntity (V : Type) := String × AssocMap String V

structure Store (V : Type) where
  storeEntities : AssocMap Ref (AssocMap Src (StoredEntity V))
  storeTombstones : Finset Ref
  storeStale : Finset SurrogateKey
  storeGaps : Finset Ref

def newStore : Store V := ⟨[], ∅, ∅, ∅⟩

def entityKeyOf (ref : Ref) : SurrogateKey := (ofLex ref).1 ++ ":" ++ (ofLex ref).2

/-- The union of two maps, the first one first. -/
def union (m m' : AssocMap String V) : AssocMap String V := m.foldr (fun e acc => AssocMap.insert e.1 e.2 acc) m'

/-- The same version adds fields to the slot, another one replaces it. -/
def mergeEntityRecord (er : EntityRecord V) : Option (StoredEntity V) → StoredEntity V
  | some (oldVer, oldFields) =>
    if oldVer = er.erVer then (oldVer, union er.erFields oldFields) else (er.erVer, er.erFields)
  | none => (er.erVer, er.erFields)

/-- The version is one that a source of the entity has. -/
def holdsVersion (s : Store V) (ref : Ref) (ver : String) : Bool :=
  match AssocMap.lookup ref s.storeEntities with
  | some srcs => (srcs.map Prod.snd).any fun e => e.1 = ver
  | none => false

def applyRecord (s : Store V) : Record V → Store V
  | .entity er =>
    let srcs := (AssocMap.lookup er.erId s.storeEntities).getD []
    let slot := mergeEntityRecord er (AssocMap.lookup er.erSrc srcs)
    { s with
      storeTombstones := s.storeTombstones.erase er.erId
      storeEntities := AssocMap.insert er.erId (AssocMap.insert er.erSrc slot srcs) s.storeEntities }
  | .tombstone ref _ =>
    { s with
      storeEntities := AssocMap.erase ref s.storeEntities
      storeTombstones := insert ref s.storeTombstones }
  | .invalidated keys => { s with storeStale := keys.foldr insert s.storeStale }
  | .unchanged ref ver =>
    if holdsVersion s ref ver then { s with storeStale := s.storeStale.erase (entityKeyOf ref) }
    else { s with storeGaps := insert ref s.storeGaps }
  | _ => s

attribute [grind =] applyRecord

def applyRecords (s : Store V) (rs : List (Record V)) : Store V := rs.foldl applyRecord s

/-! ## What a store holds -/

/-- What a source contributed to an entity. -/
def Store.held (s : Store V) (ref : Ref) (src : Src) : Option (StoredEntity V) :=
  (AssocMap.lookup ref s.storeEntities).bind (AssocMap.lookup src)

def Store.Live (s : Store V) (ref : Ref) : Prop := (AssocMap.lookup ref s.storeEntities).isSome

/-- The version and the fields, as a function of their names. -/
def StoredEntity.view (e : StoredEntity V) : String × (String → Option V) := (e.1, fun k => AssocMap.lookup k e.2)

theorem lookup_union (m m' : AssocMap String V) (k : String) :
    AssocMap.lookup k (union m m') = (AssocMap.lookup k m).or (AssocMap.lookup k m') := by
  induction m with
  | nil => rfl
  | cons e m ih =>
    obtain ⟨k', v⟩ := e
    show AssocMap.lookup k (AssocMap.insert k' v (union m m')) = _
    rw [AssocMap.lookup_insert, ih, AssocMap.lookup]
    split_ifs
    · rfl
    · rfl

/-! ## What a stream delivered -/

def deliver (ref : Ref) (src : Src) (ds : List (EntityRecord V)) : Record V → List (EntityRecord V)
  | .entity er => if er.erId = ref ∧ er.erSrc = src then er :: ds else ds
  | .tombstone ref' _ => if ref' = ref then [] else ds
  | _ => ds

/-- The records of an entity from a source since its last tombstone, the latest first. -/
def deliveries (ref : Ref) (src : Src) (rs : List (Record V)) : List (EntityRecord V) := rs.foldl (deliver ref src) []

/-- The latest version, and of each field the latest value that came with it since the
    version last changed. -/
def delivered : List (EntityRecord V) → Option (String × (String → Option V))
  | [] => none
  | er :: ds => some (er.erVer, fun k =>
      (er :: ds.takeWhile fun d => d.erVer = er.erVer).findSome? fun d => AssocMap.lookup k d.erFields)

/-- One more record of the source. -/
theorem delivered_cons (er : EntityRecord V) {ds : List (EntityRecord V)} {slot : Option (StoredEntity V)}
    (h : slot.map StoredEntity.view = delivered ds) :
    some (mergeEntityRecord er slot).view = delivered (er :: ds) := by
  cases ds with
  | nil =>
    rw [Option.map_eq_none_iff.1 h]
    refine congrArg some (Prod.ext rfl (funext fun k => ?_))
    show AssocMap.lookup k er.erFields = _
    simp
  | cons d ds =>
    obtain ⟨⟨oldVer, oldFields⟩, rfl, hview⟩ := Option.map_eq_some_iff.1 h
    have hver : oldVer = d.erVer := congrArg Prod.fst hview
    have hfields : ∀ k, AssocMap.lookup k oldFields =
        (d :: ds.takeWhile fun d' => d'.erVer = d.erVer).findSome? fun d => AssocMap.lookup k d.erFields :=
      congrFun (congrArg Prod.snd hview)
    rw [mergeEntityRecord, delivered]
    by_cases hsame : oldVer = er.erVer
    · -- the version stays: the fields so far are still current
      have hd : d.erVer = er.erVer := hver.symm.trans hsame
      rw [if_pos hsame]
      refine congrArg some (Prod.ext hsame (funext fun k => ?_))
      show AssocMap.lookup k (union er.erFields oldFields) = _
      rw [lookup_union, hfields, List.takeWhile_cons_of_pos (by simpa using hd), hd]
      cases hk : AssocMap.lookup k er.erFields <;> simp [List.findSome?_cons, hk]
    · have hd : ¬d.erVer = er.erVer := fun heq => hsame (hver.trans heq)
      rw [if_neg hsame]
      refine congrArg some (Prod.ext rfl (funext fun k => ?_))
      show AssocMap.lookup k er.erFields = _
      rw [List.takeWhile_cons_of_neg (by simpa using hd)]
      simp

/-! ## One record -/

section
variable (s : Store V) {ref : Ref} {src : Src}

theorem held_entity (er : EntityRecord V) :
    (applyRecord s (.entity er)).held ref src =
      if er.erId = ref ∧ er.erSrc = src then some (mergeEntityRecord er (s.held ref src)) else s.held ref src := by
  unfold Store.held applyRecord
  dsimp only
  rw [AssocMap.lookup_insert]
  by_cases href : ref = er.erId
  · subst href
    rw [if_pos rfl, Option.bind_some, AssocMap.lookup_insert]
    have hslot : ∀ src, AssocMap.lookup src ((AssocMap.lookup er.erId s.storeEntities).getD []) =
        (AssocMap.lookup er.erId s.storeEntities).bind (AssocMap.lookup src) := by
      intro src
      cases AssocMap.lookup er.erId s.storeEntities with
      | none => rfl
      | some srcs => rfl
    by_cases hsrc : src = er.erSrc
    · subst hsrc
      rw [if_pos rfl, if_pos ⟨rfl, rfl⟩, hslot]
    · rw [if_neg hsrc, if_neg fun h => hsrc h.2.symm, hslot]
  · rw [if_neg href, if_neg fun h => href h.1.symm]

theorem held_tombstone (ref' : Ref) (ver : String) :
    (applyRecord s (.tombstone ref' ver)).held ref src = if ref' = ref then none else s.held ref src := by
  unfold Store.held applyRecord
  dsimp only
  rw [AssocMap.lookup_erase]
  by_cases href : ref = ref'
  · rw [if_pos href, if_pos href.symm]
    rfl
  · rw [if_neg href, if_neg (Ne.symm href)]

/-- Records that are not about an entity leave the entities and the tombstones. -/
theorem applyRecord_other {r : Record V} (hentity : ∀ er, r ≠ .entity er) (htomb : ∀ ref ver, r ≠ .tombstone ref ver) :
    (applyRecord s r).storeEntities = s.storeEntities ∧ (applyRecord s r).storeTombstones = s.storeTombstones := by
  cases r with
  | entity er => exact absurd rfl (hentity er)
  | tombstone ref ver => exact absurd rfl (htomb ref ver)
  | unchanged ref ver =>
    rw [applyRecord]
    split_ifs
    · exact ⟨rfl, rfl⟩
    · exact ⟨rfl, rfl⟩
  | _ => exact ⟨rfl, rfl⟩

end

/-! ## Streams -/

theorem applyRecords_snoc (s : Store V) (rs : List (Record V)) (r : Record V) :
    applyRecords s (rs ++ [r]) = applyRecord (applyRecords s rs) r := by
  rw [applyRecords, List.foldl_append]
  rfl

theorem deliveries_snoc (ref : Ref) (src : Src) (rs : List (Record V)) (r : Record V) :
    deliveries ref src (rs ++ [r]) = deliver ref src (deliveries ref src rs) r := by
  rw [deliveries, List.foldl_append]
  rfl

/-- **The store holds what is current** of what the stream delivered. -/
theorem held_applyRecords (rs : List (Record V)) (ref : Ref) (src : Src) :
    ((applyRecords newStore rs).held ref src).map StoredEntity.view = delivered (deliveries ref src rs) := by
  induction rs using List.reverseRecOn with
  | nil => rfl
  | append_singleton rs r ih =>
    rw [applyRecords_snoc, deliveries_snoc]
    cases r with
    | entity er =>
      rw [held_entity, deliver]
      split_ifs
      · exact delivered_cons er ih
      · exact ih
    | tombstone ref' ver =>
      rw [held_tombstone, deliver]
      split_ifs
      · rfl
      · exact ih
    | unchanged ref' ver =>
      have hsame := (applyRecord_other (applyRecords newStore rs) (r := .unchanged ref' ver) nofun nofun).1
      rw [Store.held, hsame]
      exact ih
    | _ => exact ih

/-- An entity is live or has a tombstone, not both. -/
theorem live_disjoint (rs : List (Record V)) (ref : Ref) :
    ¬((applyRecords newStore rs).Live ref ∧ ref ∈ (applyRecords newStore rs).storeTombstones) := by
  induction rs using List.reverseRecOn with
  | nil => exact fun h => absurd h.2 (Finset.notMem_empty _)
  | append_singleton rs r ih =>
    rw [applyRecords_snoc]
    cases r with
    | entity er =>
      rintro ⟨hlive, htomb⟩
      obtain ⟨hne, htomb⟩ := Finset.mem_erase.1 htomb
      unfold Store.Live applyRecord at hlive
      dsimp only at hlive
      rw [AssocMap.lookup_insert, if_neg hne] at hlive
      exact ih ⟨hlive, htomb⟩
    | tombstone ref' ver =>
      rintro ⟨hlive, htomb⟩
      unfold Store.Live applyRecord at hlive
      dsimp only at hlive
      rw [AssocMap.lookup_erase] at hlive
      rcases Finset.mem_insert.1 htomb with rfl | htomb
      · rw [if_pos rfl] at hlive
        cases hlive
      · by_cases href : ref = ref'
        · rw [if_pos href] at hlive
          cases hlive
        · rw [if_neg href] at hlive
          exact ih ⟨hlive, htomb⟩
    | unchanged ref' ver =>
      obtain ⟨hentities, htombs⟩ :=
        applyRecord_other (applyRecords newStore rs) (r := .unchanged ref' ver) nofun nofun
      rw [Store.Live, hentities, htombs]
      exact ih
    | _ => exact ih

/-- The sources of an entity are in order. -/
theorem sources_ascending (rs : List (Record V)) {ref : Ref} {srcs : AssocMap Src (StoredEntity V)}
    (h : AssocMap.lookup ref (applyRecords newStore rs).storeEntities = some srcs) : srcs.Ascending := by
  induction rs using List.reverseRecOn generalizing ref srcs with
  | nil => cases h
  | append_singleton rs r ih =>
    rw [applyRecords_snoc] at h
    cases r with
    | entity er =>
      unfold applyRecord at h
      dsimp only at h
      rw [AssocMap.lookup_insert] at h
      split_ifs at h
      · cases h
        refine AssocMap.Ascending.insert ?_ _ _
        cases hl : AssocMap.lookup er.erId (applyRecords newStore rs).storeEntities with
        | none => exact List.Pairwise.nil
        | some srcs => exact ih hl
      · exact ih h
    | tombstone ref' ver =>
      unfold applyRecord at h
      dsimp only at h
      rw [AssocMap.lookup_erase] at h
      split_ifs at h
      exact ih h
    | unchanged ref' ver =>
      rw [(applyRecord_other (applyRecords newStore rs) (r := .unchanged ref' ver) nofun nofun).1] at h
      exact ih h
    | _ => exact ih h

/-- The test for a version looks at what every source holds. -/
theorem holdsVersion_iff (rs : List (Record V)) (ref : Ref) (ver : String) :
    holdsVersion (applyRecords newStore rs) ref ver = true ↔
      ∃ src fields, (applyRecords newStore rs).held ref src = some (ver, fields) := by
  unfold holdsVersion Store.held
  cases hl : AssocMap.lookup ref (applyRecords newStore rs).storeEntities with
  | none =>
    constructor
    · exact fun h => absurd h Bool.false_ne_true
    · rintro ⟨src, fields, h⟩
      cases h
  | some srcs =>
    have hasc := sources_ascending rs hl
    simp only [List.any_eq_true, List.mem_map, decide_eq_true_eq, Option.bind_some]
    constructor
    · rintro ⟨e, ⟨⟨src, e⟩, hmem, rfl⟩, rfl⟩
      exact ⟨src, e.2, (hasc.mem_iff src e).1 hmem⟩
    · rintro ⟨src, fields, hlookup⟩
      exact ⟨(ver, fields), ⟨(src, (ver, fields)), (hasc.mem_iff _ _).2 hlookup, rfl⟩, rfl⟩

/-- **The merge of a stream**: no entity is live beside its tombstone, every source holds
    what is current of what was delivered, a record of one source leaves what the others
    contributed, and an unchanged record of a version that is not held is a gap and
    nothing else. -/
theorem merge_exact (rs : List (Record V)) :
    (∀ ref, ¬((applyRecords newStore rs).Live ref ∧ ref ∈ (applyRecords newStore rs).storeTombstones)) ∧
    (∀ ref src, ((applyRecords newStore rs).held ref src).map StoredEntity.view =
      delivered (deliveries ref src rs)) ∧
    (∀ (er : EntityRecord V) ref src, ¬(er.erId = ref ∧ er.erSrc = src) →
      (applyRecords newStore (rs ++ [.entity er])).held ref src = (applyRecords newStore rs).held ref src) ∧
    (∀ ref ver, (∀ src fields, (applyRecords newStore rs).held ref src ≠ some (ver, fields)) →
      applyRecords newStore (rs ++ [.unchanged ref ver]) =
        { applyRecords newStore rs with storeGaps := insert ref (applyRecords newStore rs).storeGaps }) := by
  refine ⟨live_disjoint rs, held_applyRecords rs, fun er ref src hother => ?_, fun ref ver hno => ?_⟩
  · rw [applyRecords_snoc, held_entity, if_neg hother]
  · have hholds : ¬holdsVersion (applyRecords newStore rs) ref ver = true := by
      rw [holdsVersion_iff]
      rintro ⟨src, fields, h⟩
      exact hno src fields h
    rw [applyRecords_snoc, applyRecord, if_neg hholds]

/-! ## Streams delivered twice -/

/-- What was delivered before a stream is cleared by it, or stays behind what it delivers. -/
theorem deliveries_after (ref : Ref) (src : Src) (rs : List (Record V)) (ds : List (EntityRecord V)) :
    rs.foldl (deliver ref src) ds = deliveries ref src rs ∨
      rs.foldl (deliver ref src) ds = deliveries ref src rs ++ ds := by
  induction rs using List.reverseRecOn with
  | nil => exact .inr rfl
  | append_singleton rs r ih =>
    rw [deliveries_snoc, List.foldl_concat]
    have hone : ∀ ds', (ds' = deliveries ref src rs ∨ ds' = deliveries ref src rs ++ ds) →
        deliver ref src ds' r = deliver ref src (deliveries ref src rs) r ∨
          deliver ref src ds' r = deliver ref src (deliveries ref src rs) r ++ ds := by
      rintro ds' (rfl | rfl)
      · exact .inl rfl
      · cases r with
        | entity er => exact .inr (by simp only [deliver]; split_ifs <;> rfl)
        | tombstone ref' ver => simp only [deliver]; split_ifs <;> simp
        | _ => exact .inr rfl
    exact hone _ ih

theorem delivered_twice (ds : List (EntityRecord V)) : delivered (ds ++ ds) = delivered ds := by
  cases ds with
  | nil => rfl
  | cons er ds =>
    rw [List.cons_append, delivered, delivered, List.takeWhile_append]
    split_ifs with h
    · -- the version never changes, and the second time finds what the first found
      have hall : ds.takeWhile (fun d => d.erVer = er.erVer) = ds := (List.takeWhile_prefix _).eq_of_length h
      rw [List.takeWhile_cons_of_pos (by simp), hall]
      simp only [← List.cons_append, List.findSome?_append, Option.or_self]
    · rfl

/-- **A stream that is delivered twice leaves what it left**: of every entity and source the
    same version and fields are held. -/
theorem redelivery_held (rs : List (Record V)) (ref : Ref) (src : Src) :
    ((applyRecords newStore (rs ++ rs)).held ref src).map StoredEntity.view =
      ((applyRecords newStore rs).held ref src).map StoredEntity.view := by
  rw [held_applyRecords, held_applyRecords, deliveries, List.foldl_append]
  rcases deliveries_after ref src rs (deliveries ref src rs) with h | h
  · exact congrArg delivered h
  · exact (congrArg delivered h).trans (delivered_twice _)

end Wireform.Lattice.Client
