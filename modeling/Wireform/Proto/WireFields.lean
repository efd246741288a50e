/-
  The top-level fields of a message, as `decodeDynamic` reads them.

  * `Cut`: a run with fewer steps gives the same result, or is cut off;
    `decodeDynamic_mono` is the form used for submessages;
  * `wireFields` lists the fields in wire order, and `decodeDynamic_eq` says
    that `decodeDynamic` collects exactly these;
  * `decodeWireValue_forward`: reading a value moves forward, unless it is a
    group.
-/
import Wireform.Proto.ParseTable

namespace Wireform.Proto

open AssocMap

variable {α β : Type} {bs : ByteString} {off : Int}

/-! ## Step budgets -/

/-- `r` is `s`, or `s` cut off. -/
def Cut (r s : Result α) : Prop := r = .more ∨ r = s

theorem Cut.refl (r : Result α) : Cut r r := Or.inr rfl

theorem Cut.bind {r s : Result α} {k k' : α → Int → Result β} (h : Cut r s)
    (hk : ∀ a o, Cut (k a o) (k' a o)) : Cut (r.bind k) (s.bind k') := by
  rcases h with rfl | rfl
  · exact Or.inl rfl
  · cases r with
    | ok a o => exact hk a o
    | _ => exact Cut.refl _

theorem Cut.ok {r s : Result α} (h : Cut r s) {a : α} {o : Int} (hr : r = .ok a o) : s = .ok a o := by
  rcases h with h | h
  · rw [hr] at h; cases h
  · rw [← h, hr]

theorem skipFieldWith_cut {group group' : Decoder Unit} (h : ∀ off, Cut (group bs off) (group' bs off))
    (wt : WireType) (off : Int) : Cut (skipFieldWith group wt bs off) (skipFieldWith group' wt bs off) := by
  cases wt with
  | startGroup => exact h off
  | _ => exact Cut.refl _

theorem skipGroup_cut : ∀ {n m : Nat}, n ≤ m → ∀ off, Cut (skipGroup n bs off) (skipGroup m bs off)
  | 0, _, _, _ => Or.inl rfl
  | n + 1, m + 1, h, off => by
    have ih := @skipGroup_cut n m (by omega)
    refine (Cut.refl _).bind fun mt o => ?_
    rcases mt with _ | ⟨fn, wt⟩
    · exact Cut.refl _
    · cases wt with
      | endGroup => exact Cut.refl _
      | _ => exact (skipFieldWith_cut ih _ o).bind fun _ => ih

variable {off' : Int} {n m : Nat}

theorem decodeWireValue_cut (h : n ≤ m) (wt : WireType) (off : Int) :
    Cut (decodeWireValue n wt bs off) (decodeWireValue m wt bs off) := by
  cases wt with
  | startGroup =>
    exact (skipFieldWith_cut (skipGroup_cut h) _ off).bind fun _ _ => Cut.refl _
  | _ => exact Cut.refl _

/-! ## Fields in wire order -/

/-- A top-level field as it stands on the wire, with the value that
    `decodeWireValue` reads. -/
structure WireField where
  number : Int
  wireType : WireType
  raw : DynamicValue

/-- The fields from an offset to the end of the input. -/
def readFields : Nat → Decoder (List WireField)
  | 0 => fun _ _ => .more
  | n + 1 => fun bs off =>
    (getTagOrU bs off).bind fun mt off' =>
      match mt with
      | none => .ok [] off'
      | some ⟨fn, wt⟩ => (decodeWireValue n wt bs off').bind fun raw off'' =>
        (readFields n bs off'').bind fun fs o => .ok (⟨fn, wt, raw⟩ :: fs) o

attribute [grind =] readFields

/-- The top-level fields of a message. -/
def wireFields (n : Nat) (bs : ByteString) : Run (List WireField) := runDecoder (readFields n) bs

theorem readFields_cut : ∀ {n m : Nat}, n ≤ m → ∀ off, Cut (readFields n bs off) (readFields m bs off)
  | 0, _, _, _ => Or.inl rfl
  | n + 1, m + 1, h, off => by
    refine (Cut.refl _).bind fun mt o => ?_
    rcases mt with _ | ⟨fn, wt⟩
    · exact Cut.refl _
    · exact (decodeWireValue_cut (by omega) wt o).bind fun raw o' =>
        (@readFields_cut n m (by omega) o').bind fun _ _ => Cut.refl _

/-- `decodeDynLoop` collects the values of the fields. -/
theorem decodeDynLoop_go_eq : ∀ (n : Nat) (acc : AssocMap Int DynamicValue) (off : Int),
    decodeDynLoop.go n acc bs off = (readFields n bs off).bind fun fs o =>
      .ok (.mk (fs.foldl (fun acc f => appendValue f.number f.raw acc) acc) []) o
  | 0, _, _ => rfl
  | n + 1, acc, off => by
    unfold decodeDynLoop.go readFields
    cases getTagOrU bs off with
    | ok mt o =>
      rcases mt with _ | ⟨fn, wt⟩
      · rfl
      · simp only [Result.bind_ok]
        cases decodeWireValue n wt bs o with
        | ok raw o' =>
          simp only [Result.bind_ok, decodeDynLoop_go_eq n]
          cases readFields n bs o' <;> rfl
        | _ => rfl
    | _ => rfl

theorem runDecoder_right {d : Decoder α} {a : α} :
    runDecoder d bs = .right a ↔ d bs 0 = .ok a (bsLen bs) := by
  unfold runDecoder
  cases d bs 0 with
  | ok b o =>
    simp only [Result.ok.injEq]
    split
    · rename_i ho; simp [ho]
    · rename_i ho; simp [ho]
  | _ => simp

/-- **`decodeDynamic` collects the top-level fields.** -/
theorem decodeDynamic_eq (n : Nat) (bs : ByteString) :
    decodeDynamic n bs = (wireFields n bs).map fun fs =>
      .mk (fs.foldl (fun acc f => appendValue f.number f.raw acc) []) [] := by
  unfold decodeDynamic wireFields runDecoder decodeDynLoop
  rw [decodeDynLoop_go_eq]
  cases readFields n bs 0 with
  | ok fs o =>
    simp only [Result.bind_ok]
    split <;> rfl
  | _ => rfl

theorem decodeDynamic_right {n : Nat} :
    (∃ m, decodeDynamic n bs = .right m) ↔ ∃ fs, wireFields n bs = .right fs := by
  rw [decodeDynamic_eq]
  cases wireFields n bs <;> simp [Run.map]

theorem wireFields_mono {fs : List WireField} (h : n ≤ m)
    (hf : wireFields n bs = .right fs) : wireFields m bs = .right fs :=
  runDecoder_right.2 ((readFields_cut h 0).ok (runDecoder_right.1 hf))

/-- More steps do not change a message. -/
theorem decodeDynamic_mono {d : DynamicMessage} (h : n ≤ m)
    (hd : decodeDynamic n bs = .right d) : decodeDynamic m bs = .right d := by
  obtain ⟨fs, hfs⟩ := decodeDynamic_right.1 ⟨d, hd⟩
  rw [decodeDynamic_eq, wireFields_mono h hfs, ← hfs, ← decodeDynamic_eq, hd]

/-- The fields of a message do not depend on the step budget. -/
theorem wireFields_unique {fs gs : List WireField} (hf : wireFields n bs = .right fs)
    (hg : wireFields m bs = .right gs) : fs = gs := by
  have h1 := wireFields_mono (Nat.le_max_left n m) hf
  have h2 := wireFields_mono (Nat.le_max_right n m) hg
  rw [h1] at h2
  cases h2
  rfl

/-! ## One field -/

/-- A wire type that `skipWireValue` cannot skip. -/
def WireType.Group (wt : WireType) : Prop := wt = .startGroup ∨ wt = .endGroup

instance (wt : WireType) : Decidable wt.Group := by
  unfold WireType.Group; infer_instance

/-- What reading a list of fields reads first. -/
theorem readFields_ok {n : Nat} {fs : List WireField} {o : Int}
    (h : readFields n bs off = .ok fs o) :
    ∃ n', n = n' + 1 ∧
      ((fs = [] ∧ getTagOrU bs off = .ok none o) ∨
        ∃ f gs off' off'', fs = f :: gs ∧
          getTagOrU bs off = .ok (some ⟨f.number, f.wireType⟩) off' ∧
          decodeWireValue n' f.wireType bs off' = .ok f.raw off'' ∧
          readFields n' bs off'' = .ok gs o) := by
  cases n with
  | zero => cases h
  | succ n =>
    refine ⟨n, rfl, ?_⟩
    unfold readFields at h
    cases ht : getTagOrU bs off with
    | ok mt off' =>
      rw [ht, Result.bind_ok] at h
      rcases mt with _ | ⟨fn, wt⟩
      · cases h
        exact Or.inl ⟨rfl, rfl⟩
      · simp only at h
        cases hv : decodeWireValue n wt bs off' with
        | ok raw off'' =>
          rw [hv, Result.bind_ok] at h
          cases hr : readFields n bs off'' with
          | ok gs o' =>
            rw [hr, Result.bind_ok] at h
            cases h
            exact Or.inr ⟨⟨fn, wt, raw⟩, gs, off', off'', rfl, rfl, hv, hr⟩
          | _ => rw [hr] at h; cases h
        | _ => rw [hv] at h; cases h
    | _ => rw [ht] at h; cases h

/-- A read tag comes from a tag word before the end of the input. -/
theorem getTagOrU_word {tag : Tag} (h : getTagOrU bs off = .ok (some tag) off') :
    off < bsLen bs ∧ ∃ w, getVarint bs off = .ok w off' ∧ decodeTag w = some tag := by
  unfold getTagOrU at h
  split at h
  · cases h
  · rename_i hlt
    refine ⟨not_le.1 hlt, ?_⟩
    unfold getTag at h
    cases hv : getVarint bs off with
    | ok w o =>
      simp only [hv, Result.bind_ok] at h
      cases hd : decodeTag w with
      | none => simp [hd] at h
      | some t =>
        simp only [hd, Result.bind_ok] at h
        cases h
        exact ⟨w, rfl, hd⟩
    | _ => simp [hv] at h

theorem getTagOrU_none (h : getTagOrU bs off = .ok none off') : bsLen bs ≤ off := by
  unfold getTagOrU at h
  split at h
  · assumption
  · cases ht : getTag bs off with
    | ok t o => rw [ht] at h; cases h
    | _ => rw [ht] at h; cases h

/-- The slice of a length-delimited value lies inside the input, and the cursor
    stands after it. -/
theorem getLengthDelimited_inside (h : At bs off) {s : Slice}
    (hs : getLengthDelimited bs off = .ok s off') (hin : s.Inside bs) :
    off < off' ∧ off' ≤ bsLen bs := by
  rcases getLengthDelimited_cases h with ⟨e, he, -⟩ | ⟨t, o, ht, hcase⟩
  · rw [he] at hs; cases hs
  · rw [ht] at hs
    cases hs
    rcases hcase with ⟨-, -, hlt, hle⟩ | ⟨-, hout⟩
    · exact ⟨hlt, hle⟩
    · exact absurd hin hout

/-- A value that is no group is read forward. -/
theorem decodeWireValue_forward {n : Nat} {wt : WireType} {raw : DynamicValue}
    (h : At bs off) (hg : ¬ wt.Group) (hv : decodeWireValue n wt bs off = .ok raw off') :
    off < off' ∧ off' ≤ bsLen bs := by
  unfold decodeWireValue at hv
  cases wt with
  | varint =>
    have hf := getVarint_forward h
    cases hr : getVarint bs off <;> simp_all
  | bit64 =>
    have hf := getFixed_forward UInt64.ofNat h (n := 8) (by omega) (by omega)
    change (getFixed64 bs off).Forward bs off at hf
    cases hr : getFixed64 bs off <;> simp_all
  | bit32 =>
    have hf := getFixed_forward UInt32.ofNat h (n := 4) (by omega) (by omega)
    change (getFixed32 bs off).Forward bs off at hf
    cases hr : getFixed32 bs off <;> simp_all
  | lengthDelimited =>
    cases hr : getLengthDelimited bs off with
    | ok s o =>
      simp only [hr, Result.bind_ok, withSlice] at hv
      split at hv
      · rename_i hin
        cases hv
        exact getLengthDelimited_inside h hr hin
      · cases hv
    | _ => simp [hr] at hv
  | startGroup => exact absurd (Or.inl rfl) hg
  | endGroup => exact absurd (Or.inr rfl) hg

end Wireform.Proto
