/-
  What a green verdict of the compatibility checker is worth.

  * `Matched new old p m m'`: `m` and `m'` are at the same qualified position;
    `members` are the fields of a message, those of oneofs and maps included;
  * `VerdictSound`: after a green verdict, shared numbers keep their wire type
    and required fields stay required;
  * `Blind`: a change that breaks this and that no rule looks at;
  * `verdictSound_iff`: the verdicts are sound exactly when the files have no
    such change, or some rule raises an error for another reason.
-/
import Wireform.Proto.Compat

namespace Wireform.Proto.Compat

open AssocMap Idl

variable {X : Type}

/-! ## Positions and members -/

mutual

/-- A message and the messages nested in it, with their qualified positions
    below `path`. -/
def positions (path : List String) : MessageDef X → List (List String × MessageDef X)
  | .mk ext doc name elements =>
    (path ++ [name], .mk ext doc name elements) :: positionsElements (path ++ [name]) elements

def positionsElements (path : List String) : List (MessageElement X) → List (List String × MessageDef X)
  | [] => []
  | .meMessage msg :: rest => positions path msg ++ positionsElements path rest
  | _ :: rest => positionsElements path rest

end

/-- The messages of a file with their qualified positions. -/
def messagesAt (pf : ProtoFile X) : List (List String × MessageDef X) :=
  pf.protoTopLevels.flatMap fun
    | .tlMessage msg => positions [] msg
    | _ => []

/-- A message of the new file and one of the old file at the same position. -/
structure Matched (new old : ProtoFile X) (p : List String) (m m' : MessageDef X) : Prop where
  inNew : (p, m) ∈ messagesAt new
  inOld : (p, m') ∈ messagesAt old

/-- A field of a message: a field of its own, a member of a oneof, or a map. -/
inductive Member (X : Type) where
  | plain (fd : FieldDef X)
  | oneof (f : OneofField X)
  | map (mf : MapField X)

def members (msg : MessageDef X) : List (Member X) :=
  msg.msgElements.flatMap fun
    | .meField fd => [.plain fd]
    | .meOneof od => od.oneofFields.map .oneof
    | .meMapField mf => [.map mf]
    | _ => []

def Member.number : Member X → Int
  | .plain fd => fd.fieldNumber
  | .oneof f => f.oneofFieldNumber
  | .map mf => mf.mapFieldNum

/-- Only a field of its own can be required. -/
def Member.Required : Member X → Prop
  | .plain fd => fd.fieldLabel = some .required
  | _ => False

/-- What a type name stands for: this depends on its position, and on the
    imported files. -/
inductive NamedKind where
  | message | enum
  deriving DecidableEq, Repr

abbrev Names := List String → String → NamedKind

/-- The wire type of a field type: a varint for an enum. -/
def wireOf (kind : String → NamedKind) : FieldType → WireGroup
  | .ftScalar s => wireType (.ftScalar s)
  | .ftNamed name =>
    match kind name with
    | .enum => .wgVarint
    | .message => .wgLenDelim

def Member.wire (kind : String → NamedKind) : Member X → WireGroup
  | .plain fd => wireOf kind fd.fieldType
  | .oneof f => wireOf kind f.oneofFieldType
  | .map _ => .wgLenDelim

/-! ## Soundness of the verdicts -/

section

variable (newNames oldNames : Names) (new old : ProtoFile X)

/-- Shared numbers keep their wire type. -/
def WiresKept : Prop :=
  ∀ p m m', Matched new old p m m' → ∀ a ∈ members m, ∀ b ∈ members m', a.number = b.number →
    a.wire (newNames p) = b.wire (oldNames p)

/-- No required field is new, or was not required before. -/
def RequiredBefore : Prop :=
  ∀ p m m', Matched new old p m m' → ∀ a ∈ members m, a.Required →
    ∃ b ∈ members m', b.number = a.number ∧ b.Required

/-- Every required field is still required. -/
def RequiredStill : Prop :=
  ∀ p m m', Matched new old p m m' → ∀ b ∈ members m', b.Required →
    ∃ a ∈ members m, a.number = b.number ∧ a.Required

/-- Green verdicts keep their promises. -/
structure VerdictSound : Prop where
  backward : isCompatible (checkBackward new old) = true →
    WiresKept newNames oldNames new old ∧ RequiredBefore new old
  forward : isCompatible (checkForward new old) = true →
    WiresKept newNames oldNames new old ∧ RequiredStill new old

/-! ## Blind spots -/

/-- The messages are the ones that the checker compares under their name. -/
def Kept (m m' : MessageDef X) : Prop :=
  lookup m.msgName (messageMap new) = some m ∧ lookup m'.msgName (messageMap old) = some m'

/-- The two fields are the ones that the checker compares under their number. -/
def Compared (m m' : MessageDef X) (a b : Member X) : Prop :=
  Kept new old m m' ∧ ∃ fa fb, a = .plain fa ∧ b = .plain fb ∧
    lookup a.number (fieldMap m) = some fa ∧ lookup b.number (fieldMap m') = some fb

/-- A shared number changes its wire type, and its two fields are not compared
    or are of the same wire group with every named type counted as a message. -/
def WireBlind : Prop :=
  ∃ p m m', Matched new old p m m' ∧ ∃ a ∈ members m, ∃ b ∈ members m', a.number = b.number ∧
    a.wire (newNames p) ≠ b.wire (oldNames p) ∧
    (Compared new old m m' a b → a.wire (fun _ => .message) = b.wire (fun _ => .message))

/-- A required field is new or was not required, and its message is not
    compared, another field takes its place, or it was repeated. -/
def RequiredBlindBackward : Prop :=
  ∃ p m m', Matched new old p m m' ∧ ∃ fa, Member.plain fa ∈ members m ∧
    fa.fieldLabel = some .required ∧
    (∀ b ∈ members m', b.number = fa.fieldNumber → ¬ b.Required) ∧
    (Kept new old m m' → lookup fa.fieldNumber (fieldMap m) = some fa →
      ∃ fb, lookup fa.fieldNumber (fieldMap m') = some fb ∧ fb.fieldLabel = some .repeated)

/-- A required field is not required any more, and its message is not compared,
    another field takes its place, or what it became is not `optional`. -/
def RequiredBlindForward : Prop :=
  ∃ p m m', Matched new old p m m' ∧ ∃ fb, Member.plain fb ∈ members m' ∧
    fb.fieldLabel = some .required ∧
    (∀ a ∈ members m, a.number = fb.fieldNumber → ¬ a.Required) ∧
    (Kept new old m m' → lookup fb.fieldNumber (fieldMap m') = some fb →
      ∀ fa, lookup fb.fieldNumber (fieldMap m) = some fa → fa.fieldLabel ≠ some .optional)

end

/-! ## What the checker sees -/

mutual

theorem positions_name (path : List String) : ∀ (msg : MessageDef X) (e : List String × MessageDef X),
    e ∈ positions path msg → e.1.getLast? = some e.2.msgName
  | .mk ext doc name elements, e, h => by
    rw [positions] at h
    rcases List.mem_cons.1 h with rfl | h
    · simp [MessageDef.msgName]
    · exact positionsElements_name _ elements e h

theorem positionsElements_name (path : List String) : ∀ (elements : List (MessageElement X))
    (e : List String × MessageDef X), e ∈ positionsElements path elements →
      e.1.getLast? = some e.2.msgName
  | [], e, h => by simp [positionsElements] at h
  | .meMessage msg :: rest, e, h => by
    rw [positionsElements] at h
    rcases List.mem_append.1 h with h | h
    · exact positions_name path msg e h
    · exact positionsElements_name path rest e h
  | .meField _ :: rest, e, h | .meEnum _ :: rest, e, h | .meOneof _ :: rest, e, h
  | .meMapField _ :: rest, e, h | .meReserved _ :: rest, e, h | .meExtensions _ _ :: rest, e, h
  | .meExtend _ _ :: rest, e, h | .meOption _ :: rest, e, h | .meComment _ :: rest, e, h => by
    simp only [positionsElements] at h
    exact positionsElements_name path rest e h

end

variable {newNames oldNames : Names} {new old : ProtoFile X} {m m' : MessageDef X}

theorem Matched.name_eq {p : List String} (h : Matched new old p m m') : m.msgName = m'.msgName := by
  obtain ⟨tl, -, hm⟩ := List.mem_flatMap.1 h.inNew
  obtain ⟨tl', -, hm'⟩ := List.mem_flatMap.1 h.inOld
  have h1 : p.getLast? = some m.msgName := by
    cases tl with
    | tlMessage msg => exact positions_name [] msg _ hm
    | _ => simp at hm
  have h2 : p.getLast? = some m'.msgName := by
    cases tl' with
    | tlMessage msg => exact positions_name [] msg _ hm'
    | _ => simp at hm'
  rw [h1] at h2
  exact Option.some.inj h2

theorem lookup_fieldMap {num : Int} {fd : FieldDef X} (h : lookup num (fieldMap m) = some fd) :
    .plain fd ∈ members m ∧ fd.fieldNumber = num := by
  obtain ⟨fd', hfd', heq⟩ := List.mem_map.1 (mem_of_lookup_fromList h)
  cases heq
  refine ⟨?_, rfl⟩
  obtain ⟨el, hel, hfd⟩ := List.mem_filterMap.1 hfd'
  refine List.mem_flatMap.2 ⟨el, hel, ?_⟩
  cases el with
  | meField fd'' => cases hfd; exact List.mem_singleton_self _
  | _ => cases hfd

/-- A required member is a field of its own. -/
theorem Member.Required.plain {a : Member X} (h : a.Required) :
    ∃ fd, a = .plain fd ∧ fd.fieldLabel = some .required := by
  cases a with
  | plain fd => exact ⟨fd, rfl, h⟩
  | _ => exact h.elim

theorem wireOf_message (t : FieldType) : wireOf (fun _ => .message) t = wireType t := by
  cases t <;> rfl

/-- A compared field that changes its wire group is reported. -/
theorem reported_of_wire {dir : Direction} {a b : Member X} (hnum : a.number = b.number)
    (hc : Compared new old m m' a b) (hname : m.msgName = m'.msgName)
    (hw : a.wire (fun _ => .message) ≠ b.wire (fun _ => .message)) : Reported dir new old := by
  obtain ⟨⟨hm, hm'⟩, fa, fb, rfl, rfl, ha, hb⟩ := hc
  simp only [Member.wire, wireOf_message] at hw
  rw [← hname] at hm'
  rw [← hnum] at hb
  exact .message hm hm' (.field ha hb (.wireChanged hw))

/-! ## When the verdicts are sound -/

section

variable (newNames oldNames : Names) (new old : ProtoFile X)

/-- Without an error, wire types change only in blind spots. -/
theorem wiresKept_iff {dir : Direction} (h : ¬ Reported dir new old) :
    WiresKept newNames oldNames new old ↔ ¬ WireBlind newNames oldNames new old := by
  constructor
  · rintro hk ⟨p, m, m', hmm, a, ha, b, hb, hnum, hne, -⟩
    exact hne (hk p m m' hmm a ha b hb hnum)
  · intro hb p m m' hmm a ha b hb' hnum
    by_contra hne
    refine hb ⟨p, m, m', hmm, a, ha, b, hb', hnum, hne, fun hc => ?_⟩
    by_contra hw
    exact h (reported_of_wire hnum hc hmm.name_eq hw)

/-- Without an error, required fields appear only in blind spots. -/
theorem requiredBefore_iff (h : ¬ Reported .backwardDir new old) :
    RequiredBefore new old ↔ ¬ RequiredBlindBackward new old := by
  constructor
  · rintro hk ⟨p, m, m', hmm, fa, hfa, hl, hno, -⟩
    obtain ⟨b, hb, hnum, hr⟩ := hk p m m' hmm (.plain fa) hfa hl
    exact hno b hb hnum hr
  · intro hb p m m' hmm a ha hr
    by_contra hno
    push Not at hno
    obtain ⟨fa, rfl, hl⟩ := hr.plain
    refine hb ⟨p, m, m', hmm, fa, ha, hl, hno, fun hkept hlook => ?_⟩
    have hold := hkept.2
    rw [← hmm.name_eq] at hold
    cases hfb : lookup fa.fieldNumber (fieldMap m') with
    | none => exact absurd (.message hkept.1 hold (.requiredAdded rfl hlook hfb hl)) h
    | some fb =>
      obtain ⟨hmem, hnum⟩ := lookup_fieldMap hfb
      cases hlb : fb.fieldLabel with
      | none =>
        exact absurd (.message hkept.1 hold (.field hlook hfb (.becameRequired (Or.inr hlb) hl))) h
      | some rule =>
        cases rule with
        | optional =>
          exact absurd (.message hkept.1 hold (.field hlook hfb (.becameRequired (Or.inl hlb) hl))) h
        | required => exact absurd hlb (hno _ hmem hnum)
        | repeated => exact ⟨fb, rfl, hlb⟩

/-- Without an error, required fields are lost only in blind spots. -/
theorem requiredStill_iff (h : ¬ Reported .forwardDir new old) :
    RequiredStill new old ↔ ¬ RequiredBlindForward new old := by
  constructor
  · rintro hk ⟨p, m, m', hmm, fb, hfb, hl, hno, -⟩
    obtain ⟨a, ha, hnum, hr⟩ := hk p m m' hmm (.plain fb) hfb hl
    exact hno a ha hnum hr
  · intro hb p m m' hmm b hmem hr
    by_contra hno
    push Not at hno
    obtain ⟨fb, rfl, hl⟩ := hr.plain
    refine hb ⟨p, m, m', hmm, fb, hmem, hl, hno, fun hkept hlook fa hfa hopt => ?_⟩
    have hold := hkept.2
    rw [← hmm.name_eq] at hold
    exact h (.message hkept.1 hold (.field hfa hlook (.requiredToOptional rfl hl hopt)))

/-- **The verdicts are sound exactly when, in each direction, some rule raises
    an error or the files have no change in a blind spot.** -/
theorem verdictSound_iff : VerdictSound newNames oldNames new old ↔
    (Reported .backwardDir new old ∨
      ¬ (WireBlind newNames oldNames new old ∨ RequiredBlindBackward new old)) ∧
    (Reported .forwardDir new old ∨
      ¬ (WireBlind newNames oldNames new old ∨ RequiredBlindForward new old)) := by
  constructor
  · intro hs
    constructor
    · rw [or_iff_not_imp_left]
      intro h
      obtain ⟨hw, hr⟩ := hs.backward ((isCompatible_iff _ new old).2 h)
      rw [not_or]
      exact ⟨(wiresKept_iff newNames oldNames new old h).1 hw, (requiredBefore_iff new old h).1 hr⟩
    · rw [or_iff_not_imp_left]
      intro h
      obtain ⟨hw, hr⟩ := hs.forward ((isCompatible_iff _ new old).2 h)
      rw [not_or]
      exact ⟨(wiresKept_iff newNames oldNames new old h).1 hw, (requiredStill_iff new old h).1 hr⟩
  · rintro ⟨hb, hf⟩
    constructor
    · intro hc
      have h := (isCompatible_iff _ new old).1 hc
      obtain ⟨hw, hr⟩ := not_or.1 (hb.resolve_left h)
      exact ⟨(wiresKept_iff newNames oldNames new old h).2 hw, (requiredBefore_iff new old h).2 hr⟩
    · intro hc
      have h := (isCompatible_iff _ new old).1 hc
      obtain ⟨hw, hr⟩ := not_or.1 (hf.resolve_left h)
      exact ⟨(wiresKept_iff newNames oldNames new old h).2 hw, (requiredStill_iff new old h).2 hr⟩

end

/-! ## A oneof -/

/-- A file with one message, whose oneof has one member of a type. -/
def oneofFile (t : FieldType) : ProtoFile Unit where
  protoSyntax := .proto3
  protoPackage := none
  protoImports := []
  protoOptions := []
  protoTopLevels := [.tlMessage (.mk () none "Msg"
    [.meOneof ⟨(), none, "choice", [⟨(), none, t, "value", 1, []⟩], []⟩])]
  protoSource := none

/-- The member of the oneof changes from `int32` to `string`, and no rule looks
    at it. -/
theorem oneof_changed : ¬ VerdictSound (fun _ _ => .message) (fun _ _ => .message)
    (oneofFile (.ftScalar .sString)) (oneofFile (.ftScalar .sInt32)) := by
  intro hs
  have hc : isCompatible (checkBackward (oneofFile (.ftScalar .sString))
      (oneofFile (.ftScalar .sInt32))) = true := by decide
  have hw := (hs.backward hc).1 ["Msg"] _ _ ⟨List.mem_singleton_self _, List.mem_singleton_self _⟩
    (.oneof ⟨(), none, .ftScalar .sString, "value", 1, []⟩) (List.mem_singleton_self _)
    (.oneof ⟨(), none, .ftScalar .sInt32, "value", 1, []⟩) (List.mem_singleton_self _) rfl
  cases hw

end Wireform.Proto.Compat
