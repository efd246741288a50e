/-
  The wire primitives and the group walk.

  * `GroupVisits` is the set of cursors at which `skipGroup` reads a tag.  With
    lengths that fit, every move of the walk is forward, so a budget of one
    step for each byte left is enough (`groupGood_iff`);
  * `Prim` lists the primitives, `Prim.Good` is what their callers rely on: the
    run ends, in an error or with a later cursor inside the input, slices lie
    inside the input, and no length prefix moves the cursor backwards;
  * `good_iff_fits`: a primitive is good exactly when the declared lengths it
    reaches, added to the offset after their prefix, stay below `2^63`.
-/
import Wireform.Proto.Bounds

namespace Wireform.Proto

variable {bs : ByteString} {off : Int}

/-! ## The group walk -/

/-- The cursors at which skipping a group from `off` reads a tag, the groups
    nested in it included. -/
inductive GroupVisits (bs : ByteString) : Int → Int → Prop where
  | here {off : Int} : GroupVisits bs off off
  | inner {off off' c fn : Int} : getTagOrU bs off = .ok (some ⟨fn, .startGroup⟩) off' →
      GroupVisits bs off' c → GroupVisits bs off c
  | next {off off' off'' c fn : Int} {wt : WireType} {n : Nat} :
      getTagOrU bs off = .ok (some ⟨fn, wt⟩) off' → wt ≠ .endGroup →
      skipField n wt bs off' = .ok () off'' → GroupVisits bs off'' c → GroupVisits bs off c

/-- The field at cursor `c` is skipped forwards. -/
def FieldMoves (bs : ByteString) (c : Int) : Prop :=
  ∀ fn wt off', getTagOrU bs c = .ok (some ⟨fn, wt⟩) off' →
    c < off' ∧ off' ≤ bsLen bs ∧
    (∀ n off'', skipField n wt bs off' = .ok () off'' → off' ≤ off'' ∧ off'' ≤ bsLen bs) ∧
    (wt = .lengthDelimited → PrefixKept bs off' (skipLengthDelimited bs off'))

/-- Skipping a group ends, and every field on the way is skipped forwards. -/
def GroupGood (bs : ByteString) (off : Int) : Prop :=
  (∃ n, (skipGroup n bs off).Forward bs off) ∧ ∀ c, GroupVisits bs off c → FieldMoves bs c

/-- The lengths declared in the group fit. -/
def GroupFits (bs : ByteString) (off : Int) : Prop :=
  ∀ c, GroupVisits bs off c → ∀ fn off',
    getTagOrU bs c = .ok (some ⟨fn, .lengthDelimited⟩) off' → LengthFits bs off'

theorem GroupFits.inner {fn off' : Int} (hf : GroupFits bs off)
    (ht : getTagOrU bs off = .ok (some ⟨fn, .startGroup⟩) off') : GroupFits bs off' :=
  fun c hc => hf c (.inner ht hc)

theorem GroupFits.next {fn off' off'' : Int} {wt : WireType} {n : Nat} (hf : GroupFits bs off)
    (ht : getTagOrU bs off = .ok (some ⟨fn, wt⟩) off') (hwt : wt ≠ .endGroup)
    (hs : skipField n wt bs off' = .ok () off'') : GroupFits bs off'' :=
  fun c hc => hf c (.next ht hwt hs hc)

/-- A run that moved forward, unless its budget ran out. -/
def ForwardOrMore (bs : ByteString) (off : Int) (r : Result Unit) : Prop :=
  r = .more ∨ r.Forward bs off

theorem ForwardOrMore.ok {off' : Int} (h : ForwardOrMore bs off (.ok () off')) :
    off < off' ∧ off' ≤ bsLen bs := by
  rcases h with h | h
  · cases h
  · exact h

/-- Skipping the payload of a field, given how the group inside it is skipped. -/
theorem skipFieldWith_forward {group : Decoder Unit} (h : At bs off) {wt : WireType}
    (hl : wt = .lengthDelimited → LengthFits bs off)
    (hg : wt = .startGroup → ForwardOrMore bs off (group bs off)) (he : wt ≠ .endGroup) :
    ForwardOrMore bs off (skipFieldWith group wt bs off) ∧
      (skipFieldWith group wt bs off = .more → wt = .startGroup ∧ group bs off = .more) := by
  have hmore : ∀ r : Result Unit, r.Forward bs off →
      ForwardOrMore bs off r ∧ (r = .more → wt = .startGroup ∧ group bs off = .more) := by
    rintro r hr
    exact ⟨Or.inr hr, by rintro rfl; cases hr⟩
  cases wt with
  | varint => exact hmore _ (skipVarint_forward h)
  | bit64 => exact hmore _ (skip_forward h (by omega) (by omega))
  | lengthDelimited => exact hmore _ (skipLengthDelimited_fits h (hl rfl)).1
  | startGroup => exact ⟨hg rfl, fun hm => ⟨rfl, hm⟩⟩
  | endGroup => exact absurd rfl he
  | bit32 => exact hmore _ (skip_forward h (by omega) (by omega))

/-- **One step of the group walk**, by the tag found. -/
theorem skipGroup_succ (n : Nat) :
    (∃ e, skipGroup (n + 1) bs off = .fail e) ∨
    (∃ fn off', getTagOrU bs off = .ok (some ⟨fn, .endGroup⟩) off' ∧
      skipGroup (n + 1) bs off = .ok () off') ∨
    (∃ fn wt off', getTagOrU bs off = .ok (some ⟨fn, wt⟩) off' ∧ wt ≠ .endGroup ∧
      skipGroup (n + 1) bs off = (skipField n wt >>= fun _ => skipGroup n) bs off') ∨
    (getTagOrU bs off = .fault ∧ skipGroup (n + 1) bs off = .fault) ∨
    (getTagOrU bs off = .more ∧ skipGroup (n + 1) bs off = .more) := by
  cases ht : getTagOrU bs off with
  | ok mt off' =>
    rcases mt with _ | ⟨fn, wt⟩
    · exact Or.inl ⟨.unexpectedEnd, by simp [skipGroup, ht]⟩
    · by_cases hwt : wt = .endGroup
      · subst hwt; exact Or.inr (Or.inl ⟨fn, off', rfl, by simp [skipGroup, ht]⟩)
      · refine Or.inr (Or.inr (Or.inl ⟨fn, wt, off', rfl, hwt, ?_⟩))
        cases wt <;> first | exact absurd rfl hwt | simp [skipGroup, ht, skipField]
  | fail e => exact Or.inl ⟨e, by simp [skipGroup, ht]⟩
  | fault => exact Or.inr (Or.inr (Or.inr (Or.inl ⟨rfl, by simp [skipGroup, ht]⟩)))
  | more => exact Or.inr (Or.inr (Or.inr (Or.inr ⟨rfl, by simp [skipGroup, ht]⟩)))

theorem getTagOrU_ends (h : At bs off) : getTagOrU bs off ≠ .fault ∧ getTagOrU bs off ≠ .more := by
  have hf := getTag_forward h
  unfold getTagOrU
  split
  · simp
  · revert hf
    cases getTag bs off <;> simp

/-- With lengths that fit, the walk is forward, and one step for each byte left
    is enough. -/
theorem skipGroup_forward : ∀ (n : Nat) (off : Int), At bs off → GroupFits bs off →
    ForwardOrMore bs off (skipGroup n bs off) ∧
      (bsLen bs - off < n → skipGroup n bs off ≠ .more)
  | 0, off, h, _ => ⟨Or.inl rfl, fun hn => absurd h.hi (by push_cast at hn; omega)⟩
  | n + 1, off, h, hf => by
    have ih := skipGroup_forward n
    rcases @skipGroup_succ bs off n with ⟨e, he⟩ | ⟨fn, off', ht, he⟩ |
        ⟨fn, wt, off', ht, hwt, he⟩ | ⟨ht, -⟩ | ⟨ht, -⟩
    · rw [he]; exact ⟨Or.inr trivial, fun _ => by simp⟩
    · rw [he]
      exact ⟨Or.inr (getTagOrU_some h ht), fun _ => by simp⟩
    · have hto := getTagOrU_some h ht
      have h' : At bs off' := h.step hto.1.le hto.2
      have hskip := @skipFieldWith_forward bs off' (skipGroup n) h' wt
        (fun hwl => hf off .here fn off' (hwl ▸ ht))
        (fun hwg => (ih off' h' (hf.inner (hwg ▸ ht))).1) hwt
      rw [he]
      change ForwardOrMore bs off (Decoder.bind _ _ bs off') ∧
        (_ → Decoder.bind _ _ bs off' ≠ .more)
      unfold Decoder.bind
      cases hs : skipField n wt bs off' with
      | ok u off'' =>
        have hs' : skipFieldWith (skipGroup n) wt bs off' = .ok u off'' := hs
        rw [hs'] at hskip
        have hmv := hskip.1.ok
        have ih' := ih off'' (h'.step hmv.1.le hmv.2) (hf.next ht hwt hs)
        exact ⟨ih'.1.imp id fun hfw => hfw.mono (by omega), fun hn =>
          ih'.2 (by push_cast at hn; omega)⟩
      | fail e => exact ⟨Or.inr trivial, fun _ => by simp⟩
      | fault =>
        have hs' : skipFieldWith (skipGroup n) wt bs off' = .fault := hs
        rw [hs'] at hskip
        rcases hskip.1 with hc | hc
        · cases hc
        · exact absurd hc (not_forward_fault)
      | more =>
        refine ⟨Or.inl rfl, fun hn => ?_⟩
        have hg := hskip.2 hs
        exact absurd hg.2 ((ih off' h' (hf.inner (hg.1 ▸ ht))).2 (by push_cast at hn; omega))
    · exact absurd ht (getTagOrU_ends h).1
    · exact absurd ht (getTagOrU_ends h).2

/-- Skipping a field that fits moves the cursor forwards. -/
theorem skipField_moves {n : Nat} {wt : WireType} {off' : Int} (h : At bs off)
    (hl : wt = .lengthDelimited → LengthFits bs off) (hg : wt = .startGroup → GroupFits bs off)
    (hs : skipField n wt bs off = .ok () off') : off ≤ off' ∧ off' ≤ bsLen bs := by
  by_cases hwt : wt = .endGroup
  · subst hwt
    cases hs
    exact ⟨le_rfl, h.hi⟩
  · have := (skipFieldWith_forward h hl (fun hw => (skipGroup_forward n off h (hg hw)).1) hwt).1
    change skipFieldWith (skipGroup n) wt bs off = _ at hs
    rw [hs] at this
    exact ⟨this.ok.1.le, this.ok.2⟩

theorem GroupVisits.at {c : Int} (hv : GroupVisits bs off c) (h : At bs off)
    (hf : GroupFits bs off) : At bs c ∧ GroupFits bs c := by
  induction hv with
  | here => exact ⟨h, hf⟩
  | inner ht _ ih =>
    have hto := getTagOrU_some h ht
    exact ih (h.step hto.1.le hto.2) (hf.inner ht)
  | next ht hwt hs _ ih =>
    have hto := getTagOrU_some h ht
    have h' := h.step hto.1.le hto.2
    have hmv := skipField_moves h' (fun hw => hf _ .here _ _ (hw ▸ ht))
      (fun hw => hf.inner (hw ▸ ht)) hs
    exact ih (h'.step hmv.1 hmv.2) (hf.next ht hwt hs)

/-- A cursor of a good walk lies inside the input. -/
theorem GroupVisits.at_of_moves {c : Int} (hv : GroupVisits bs off c) (h : At bs off)
    (hm : ∀ c, GroupVisits bs off c → FieldMoves bs c) : At bs c := by
  induction hv with
  | here => exact h
  | inner ht _ ih =>
    have hto := getTagOrU_some h ht
    exact ih (h.step hto.1.le hto.2) fun c hc => hm c (.inner ht hc)
  | next ht hwt hs _ ih =>
    have hto := getTagOrU_some h ht
    have hmv := (hm _ .here _ _ _ ht).2.2.1 _ _ hs
    exact ih ((h.step hto.1.le hto.2).step hmv.1 hmv.2) fun c hc => hm c (.next ht hwt hs hc)

/-- **Skipping a group is good exactly when its lengths fit.** -/
theorem groupGood_iff (h : At bs off) : GroupGood bs off ↔ GroupFits bs off := by
  constructor
  · rintro ⟨-, hm⟩ c hc fn off' ht
    have hc' := hc.at_of_moves h hm
    have hto := getTagOrU_some hc' ht
    exact lengthFits_of_skip (hc'.step hto.1.le hto.2) ((hm c hc _ _ _ ht).2.2.2 rfl)
  · intro hf
    refine ⟨⟨(bsLen bs - off).toNat + 1, ?_⟩, fun c hc fn wt off' ht => ?_⟩
    · have hgo := skipGroup_forward ((bsLen bs - off).toNat + 1) off h hf
      rcases hgo.1 with hm | hfw
      · exact absurd hm (hgo.2 (by have := h.hi; omega))
      · exact hfw
    · obtain ⟨hc', hf'⟩ := hc.at h hf
      have hto := getTagOrU_some hc' ht
      have h' := hc'.step hto.1.le hto.2
      exact ⟨hto.1, hto.2, fun n off'' hs => skipField_moves h'
        (fun hw => hf' _ .here _ _ (hw ▸ ht)) (fun hw => hf'.inner (hw ▸ ht)) hs,
        fun hw => (skipLengthDelimited_fits h' (hf' _ .here _ _ (hw ▸ ht))).2⟩

/-! ## The primitives -/

/-- A message decoder that ends on every submessage, in a value or an error. -/
structure MessageDecoder (α : Type) where
  run : Decoder α
  ends : ∀ sub, run sub 0 ≠ .fault ∧ run sub 0 ≠ .more

/-- The wire primitives. -/
inductive Prim : Type 1 where
  | getVarint | getFixed32 | getFixed64 | getLengthDelimited | getText | getTag
  | decodeFieldMessage {α : Type} (m : MessageDecoder α)
  | skipField (wt : WireType)
  | skipWireType (wt : Int)
  | skipGroup

/-- Skipping past a payload of a known wire type: forwards, and not to before
    the end of a length prefix. -/
def SkipGood (bs : ByteString) (off : Int) (d : Decoder Unit) : Prop :=
  (d bs off).Forward bs off ∧ PrefixKept bs off (skipLengthDelimited bs off)

/-- **What the callers of a primitive rely on.** -/
def Prim.Good (bs : ByteString) (off : Int) : Prim → Prop
  | .getVarint => (Proto.getVarint bs off).Forward bs off
  | .getFixed32 => (Proto.getFixed32 bs off).Forward bs off
  | .getFixed64 => (Proto.getFixed64 bs off).Forward bs off
  | .getLengthDelimited => (Proto.getLengthDelimited bs off).Forward bs off ∧
      ∀ s off', Proto.getLengthDelimited bs off = .ok s off' → s.Inside bs
  | .getText => (Proto.getText bs off).Forward bs off
  | .getTag => (Proto.getTag bs off).Forward bs off
  | .decodeFieldMessage m => (Proto.decodeFieldMessage m.run bs off).Forward bs off
  | .skipField .lengthDelimited => ∀ n, SkipGood bs off (Proto.skipField n .lengthDelimited)
  | .skipField .startGroup | .skipGroup => GroupGood bs off
  | .skipField .endGroup => ∀ n, Proto.skipField n .endGroup bs off = .ok () off
  | .skipField wt => ∀ n, (Proto.skipField n wt bs off).Forward bs off
  | .skipWireType wt => if wt = 2 then SkipGood bs off (Proto.skipWireType 2)
      else (Proto.skipWireType wt bs off).Forward bs off

/-- The declared lengths that a primitive reads fit. -/
def Prim.Fits (bs : ByteString) (off : Int) : Prim → Prop
  | .getLengthDelimited | .getText | .decodeFieldMessage _ => SignedLengthFits bs off
  | .skipField .lengthDelimited | .skipWireType 2 => LengthFits bs off
  | .skipField .startGroup | .skipGroup => GroupFits bs off
  | _ => True

/-! ## Exactly when a primitive is good -/

theorem signedLengthFits_iff {lenW : UInt64} {off' : Int} (hw : getVarint bs off = .ok lenW off') :
    SignedLengthFits bs off ↔ (2 ^ 63 ≤ lenW.toNat ∨ off' + lenW.toNat < 2 ^ 63) := by
  constructor
  · intro h; exact h _ _ hw
  · intro h w o hw'
    rw [hw] at hw'; cases hw'; exact h

/-- A length that the bounds check rejects did not overflow. -/
theorem fits_of_rejected (h : At bs off) {lenW : UInt64} {off' : Int}
    (hw : getVarint bs off = .ok lenW off') (hend : addInt off' (ofWord lenW) > bsLen bs) :
    SignedLengthFits bs off := by
  have hv := getVarint_forward h
  rw [hw, forward_ok] at hv
  have hlo := h.lo
  have hsm := h.small
  rw [signedLengthFits_iff hw]
  rcases addInt_length (p := off') (by omega) (by omega) lenW with ⟨hlt, -⟩ | ⟨-, hback⟩
  · exact Or.inr hlt
  · omega

/-- A length that the bounds check lets through fits exactly when its slice
    lies inside the input, and then the cursor is the end of the slice. -/
theorem fits_of_accepted (h : At bs off) {lenW : UInt64} {off' : Int}
    (hw : getVarint bs off = .ok lenW off') (hneg : ¬ ofWord lenW < 0)
    (hend : ¬ addInt off' (ofWord lenW) > bsLen bs) :
    (SignedLengthFits bs off ∧ Slice.Inside ⟨off', ofWord lenW⟩ bs ∧
      off < addInt off' (ofWord lenW) ∧ addInt off' (ofWord lenW) ≤ bsLen bs) ∨
    (¬ SignedLengthFits bs off ∧ ¬ Slice.Inside ⟨off', ofWord lenW⟩ bs) := by
  have hv := getVarint_forward h
  rw [hw, forward_ok] at hv
  rw [signedLengthFits_iff hw]
  rcases length_checked h hw hneg hend with ⟨hlt, hadd, hin⟩ | ⟨hge, hlt, -, hout⟩
  · exact Or.inl ⟨Or.inr hlt, hin, by omega, by omega⟩
  · exact Or.inr ⟨by omega, hout⟩

/-- **What `getLengthDelimited` does**: an error, with a length that fits, or a
    slice, which lies inside the input exactly when the length fits. -/
theorem getLengthDelimited_cases (h : At bs off) :
    (∃ e, getLengthDelimited bs off = .fail e ∧ SignedLengthFits bs off) ∨
    (∃ s off', getLengthDelimited bs off = .ok s off' ∧
      ((SignedLengthFits bs off ∧ s.Inside bs ∧ off < off' ∧ off' ≤ bsLen bs) ∨
        (¬ SignedLengthFits bs off ∧ ¬ s.Inside bs))) := by
  have hv := getVarint_forward h
  unfold getLengthDelimited
  cases hw : getVarint bs off with
  | ok w o =>
    simp only [Result.bind_ok]
    split
    · rename_i hneg
      exact Or.inl ⟨_, rfl, (signedLengthFits_iff hw).2 (Or.inl ((ofWord_neg_iff w).1 hneg))⟩
    split
    · rename_i hend
      exact Or.inl ⟨_, rfl, fits_of_rejected h hw hend⟩
    · rename_i hneg hend
      exact Or.inr ⟨_, _, rfl, fits_of_accepted h hw hneg hend⟩
  | fail e => exact Or.inl ⟨e, rfl, fun w o hw' => by rw [hw] at hw'; cases hw'⟩
  | fault => rw [hw] at hv; exact absurd hv not_forward_fault
  | more => rw [hw] at hv; exact absurd hv not_forward_more

theorem getLengthDelimited_good_iff (h : At bs off) :
    ((getLengthDelimited bs off).Forward bs off ∧
      ∀ s off', getLengthDelimited bs off = .ok s off' → s.Inside bs) ↔ SignedLengthFits bs off := by
  rcases getLengthDelimited_cases h with ⟨e, he, hf⟩ | ⟨s, o, he, ⟨hf, hin, hfw⟩ | ⟨hf, hout⟩⟩ <;>
    rw [he]
  · exact iff_of_true (by simp) hf
  · refine iff_of_true ⟨hfw, ?_⟩ hf
    rintro _ _ ⟨⟩; exact hin
  · exact iff_of_false (fun hg => hout (hg.2 _ _ rfl)) hf

theorem getText_good_iff (h : At bs off) :
    (getText bs off).Forward bs off ↔ SignedLengthFits bs off := by
  unfold getText
  rcases getLengthDelimited_cases h with ⟨e, he, hf⟩ | ⟨s, o, he, ⟨hf, hin, hfw⟩ | ⟨hf, hout⟩⟩ <;>
    rw [he]
  · exact iff_of_true (by simp) hf
  · simp only [Result.bind_ok, withSlice, if_pos hin]
    refine iff_of_true ?_ hf
    split
    · exact hfw
    · simp
  · simp only [Result.bind_ok, withSlice, if_neg hout]
    exact iff_of_false not_forward_fault hf

/-- `decodeFieldMessage` runs on the slice of `getLengthDelimited`. -/
theorem decodeFieldMessage_eq {α : Type} (m : Decoder α) :
    decodeFieldMessage m bs off = (getLengthDelimited bs off).bind fun s off' =>
      withSlice bs s fun sub => runSubmessage m sub s.len off' := by
  unfold decodeFieldMessage getLengthDelimited
  cases getVarint bs off with
  | ok w o =>
    simp only [Result.bind_ok]
    by_cases hneg : ofWord w < 0
    · simp only [if_pos hneg, Result.bind_fail]
    by_cases hend : addInt o (ofWord w) > bsLen bs
    · simp only [if_neg hneg, if_pos hend, Result.bind_fail]
    · simp only [if_neg hneg, if_neg hend, Result.bind_ok]
  | _ => simp

theorem decodeFieldMessage_good_iff {α : Type} (m : MessageDecoder α) (h : At bs off) :
    (decodeFieldMessage m.run bs off).Forward bs off ↔ SignedLengthFits bs off := by
  rw [decodeFieldMessage_eq]
  rcases getLengthDelimited_cases h with ⟨e, he, hf⟩ | ⟨s, o, he, ⟨hf, hin, hfw⟩ | ⟨hf, hout⟩⟩ <;>
    rw [he]
  · exact iff_of_true (by simp) hf
  · simp only [Result.bind_ok, withSlice, if_pos hin]
    refine iff_of_true ?_ hf
    have hends := m.ends (s.bytes bs)
    unfold runSubmessage
    split
    · split
      · exact hfw
      · simp
    · simp
    · rename_i hm; exact absurd hm hends.1
    · rename_i hm; exact absurd hm hends.2
  · simp only [Result.bind_ok, withSlice, if_neg hout]
    exact iff_of_false not_forward_fault hf

theorem skipLengthDelimited_good_iff (h : At bs off) :
    SkipGood bs off skipLengthDelimited ↔ LengthFits bs off :=
  ⟨fun hg => lengthFits_of_skip h hg.2, fun hf => skipLengthDelimited_fits h hf⟩

theorem skipWireType_forward (h : At bs off) {wt : Int} (hwt : wt ≠ 2) :
    (skipWireType wt bs off).Forward bs off := by
  unfold skipWireType
  split_ifs
  · exact skipVarint_forward h
  · exact skip_forward h (by omega) (by omega)
  · exact skip_forward h (by omega) (by omega)
  · trivial

/-- **The wire primitives stay inside the input, and move forwards, exactly
    when the declared lengths fit.** -/
theorem good_iff_fits (p : Prim) (h : At bs off) : p.Good bs off ↔ p.Fits bs off := by
  cases p with
  | getVarint => exact iff_of_true (getVarint_forward h) trivial
  | getFixed32 => exact iff_of_true (getFixed_forward _ h (by omega) (by omega)) trivial
  | getFixed64 => exact iff_of_true (getFixed_forward _ h (by omega) (by omega)) trivial
  | getLengthDelimited => exact getLengthDelimited_good_iff h
  | getText => exact getText_good_iff h
  | getTag => exact iff_of_true (getTag_forward h) trivial
  | decodeFieldMessage m => exact decodeFieldMessage_good_iff m h
  | skipField wt =>
    cases wt with
    | varint => exact iff_of_true (fun _ => skipVarint_forward h) trivial
    | bit64 => exact iff_of_true (fun _ => skip_forward h (by omega) (by omega)) trivial
    | lengthDelimited =>
      exact ⟨fun hg => (skipLengthDelimited_good_iff h).1 (hg 0),
        fun hf _ => (skipLengthDelimited_good_iff h).2 hf⟩
    | startGroup => exact groupGood_iff h
    | endGroup => exact iff_of_true (fun _ => rfl) trivial
    | bit32 => exact iff_of_true (fun _ => skip_forward h (by omega) (by omega)) trivial
  | skipWireType wt =>
    by_cases hwt : wt = 2
    · subst hwt
      exact skipLengthDelimited_good_iff h
    · have hfits : Prim.Fits bs off (.skipWireType wt) := by
        unfold Prim.Fits; split <;> simp_all
      refine iff_of_true ?_ hfits
      simp only [Prim.Good, if_neg hwt]
      exact skipWireType_forward h hwt
  | skipGroup => exact groupGood_iff h

/-- A length of `2^63 - 1` after nothing else. -/
def hugeLength : ByteString := [0xFF, 0xFF, 0xFF, 0xFF, 0xFF, 0xFF, 0xFF, 0xFF, 0x7F]

theorem good_iff_fits_inside :
    At [0x02, 0x61, 0x62] 0 ∧ (Prim.getLengthDelimited.Good [0x02, 0x61, 0x62] 0 ↔
      Prim.getLengthDelimited.Fits [0x02, 0x61, 0x62] 0) :=
  have h : At [0x02, 0x61, 0x62] 0 := ⟨by decide, by decide, by decide⟩
  ⟨h, good_iff_fits _ h⟩

/-- A length of `2^63 - 1` is accepted, and the cursor lands at
    `-2^63 + 8`. -/
theorem hugeLength_not_good :
    getLengthDelimited hugeLength 0 = .ok ⟨9, 2 ^ 63 - 1⟩ (-2 ^ 63 + 8) ∧
      ¬ ∀ (p : Prim) (bs : ByteString) (off : Int), At bs off → p.Good bs off := by
  have hrun : getLengthDelimited hugeLength 0 = .ok ⟨9, 2 ^ 63 - 1⟩ (-2 ^ 63 + 8) := by decide
  refine ⟨hrun, fun hall => ?_⟩
  have := (hall .getLengthDelimited hugeLength 0 ⟨by decide, by decide, by decide⟩).1
  rw [hrun] at this
  exact absurd this.1 (by decide)

end Wireform.Proto
