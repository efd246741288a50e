/-
  When the block decoder is safe.

  Two things a peer can send lead it astray: a string whose end is at `2 ^ 63` or
  later, which sends the decoder backwards, and a table size from `2 ^ 63` on,
  which becomes a negative limit unless a further size follows.  The decoder is
  safe exactly on the blocks with neither (`blockSafe_iff`).
-/
import Wireform.Http2.Hpack.Turns

namespace Wireform.Http2.Hpack

variable {bs rest : ByteString} {off : Int} {dt : DynamicTable} {maxTableSize : Int}

/-! ## Size updates -/

/-- A size update at an offset: its size, and the offset behind it. -/
def UpdateAt (bs : ByteString) (off : Int) (size : Nat) (off' : Int) : Prop :=
  ∃ b rest post, bs.drop off.toNat = b :: rest ∧ isUpdate b ∧
    prefixInteger 5 (b :: rest) = some (size, post) ∧ off' = bsLen bs - post.length

/-- A size that the decoder accepts: from `2 ^ 63` on it is taken for a negative
    number. -/
def Accepted (maxTableSize : Int) (size : Nat) : Prop := size ≤ maxTableSize ∨ 2 ^ 63 ≤ size

theorem ofWord_size {size : Nat} (h : size < 2 ^ 63 + 128) :
    ofWord (UInt64.ofNat size) = if size < 2 ^ 63 then (size : Int) else size - 2 ^ 64 := by
  have hnat : (UInt64.ofNat size).toNat = size := by
    rw [UInt64.toNat_ofNat']
    omega
  split
  · exact ofWord_ofNat ‹_›
  · rw [ofWord_ge (by omega), hnat]

theorem accepted_iff (hmax : 0 ≤ maxTableSize) (hrange : InRange maxTableSize) {size : Nat}
    (h : size < 2 ^ 63 + 128) :
    Accepted maxTableSize size ↔ ¬ ofWord (UInt64.ofNat size) > maxTableSize := by
  unfold Accepted InRange at *
  rw [ofWord_size h]
  split
  · omega
  · omega

/-- What a size update does. -/
theorem decodeDynamicTableUpdate_cases {b : UInt8} (h : Cursor bs off (b :: rest)) (hu : isUpdate b)
    (dt : DynamicTable) (hmax : 0 ≤ maxTableSize) (hrange : InRange maxTableSize) :
    ((∃ e, decodeDynamicTableUpdate dt maxTableSize bs off = (.left e, dt)) ∧
      ∀ size off', UpdateAt bs off size off' → ¬ Accepted maxTableSize size) ∨
    ∃ size off', UpdateAt bs off size off' ∧ Accepted maxTableSize size ∧ off < off' ∧ off' ≤ bsLen bs ∧
      decodeDynamicTableUpdate dt maxTableSize bs off =
        (.right (none, off'), setMaxSize dt (ofWord (UInt64.ofNat size))) := by
  unfold decodeDynamicTableUpdate
  rcases decodeInteger_cases (by decide : 5 < 8) h with ⟨hp, e, he⟩ | ⟨size, post, hp, hpost, he⟩
  · refine Or.inl ⟨⟨e, by rw [he]⟩, ?_⟩
    rintro size off' ⟨b', rest', post, hdrop, -, hp', -⟩
    rw [← hdrop, h.drop, hp] at hp'
    cases hp'
  · obtain ⟨hbound, hlt, -⟩ := prefixInteger_lt (by decide) hp
    have hacc := accepted_iff hmax hrange hbound
    have hlen := h.length_eq
    rw [he]
    simp only
    by_cases ha : Accepted maxTableSize size
    · refine Or.inr ⟨size, _, ⟨b, rest, post, h.drop, hu, hp, rfl⟩, ha, ?_, by omega, ?_⟩
      · rw [bsLen]
        omega
      · rw [if_neg (hacc.1 ha)]
    · refine Or.inl ⟨⟨_, by rw [if_pos (not_not.1 (fun hn => ha (hacc.2 hn)))]⟩, ?_⟩
      rintro size' off' ⟨b', rest', post', hdrop, -, hp', -⟩
      rw [← hdrop, h.drop, hp] at hp'
      cases hp'
      exact ha

theorem decodeDynamicTableUpdate_forward (hs : bsLen bs < 2 ^ 63) (h0 : 0 ≤ off) (maxSize : Int) :
    Forward bs off (decodeDynamicTableUpdate dt maxSize bs off).1 := by
  have hf := decodeInteger_forward (by decide : 5 < 8) hs h0
  rw [decodeDynamicTableUpdate]
  cases hd : decodeInteger bs off 5 with
  | right r =>
    rw [hd] at hf
    simp only
    split
    · trivial
    · exact hf
  | left e => trivial
  | crash => rw [hd] at hf; exact hf
  | more => rw [hd] at hf; exact hf

/-! ## Headers -/

/-- **A header whose strings fit is read forward.** -/
theorem decodeHeader_safe (h : Cursor bs off rest) (hfit : ∀ o, HeaderString dt bs off o → Fits bs o) :
    Forward bs off (decodeHeader dt bs off).1 := by
  have hs : bsLen bs < 2 ^ 63 := h.small
  cases rest with
  | nil =>
    have hend := h.length_eq
    simp only [List.length_nil] at hend
    rw [decodeHeader, if_pos (by rw [bsLen]; omega)]
    trivial
  | cons b rest =>
    have hlit : ∀ n, literalPrefix b = some n → Forward bs off (decodeLiteral dt bs off n) := fun n hn =>
      decodeLiteral_safe (literalPrefix_lt hn) hs h.nonneg fun o ho => hfit o ⟨b, n, h.get, hn, ho⟩
    rcases @decodeHeader_cases bs rest off dt b h with ⟨he, -⟩ | ⟨hp, he⟩ | ⟨hp, he⟩ | ⟨-, he⟩
    · rw [he]
      exact decodeIndexed_safe hs h.nonneg
    · rw [he]
      exact decodeLiteralIncremental_forward (hlit 6 hp)
    · rw [he]
      exact decodeLiteralCommon_forward (hlit 4 hp)
    · rw [he]
      exact decodeDynamicTableUpdate_forward hs h.nonneg 4096

/-- A header does not change the limit of the table. -/
theorem decodeHeader_kept {b : UInt8} (h : Cursor bs off (b :: rest)) (hb : ¬ isUpdate b) :
    TableKept dt (decodeHeader dt bs off).2 := by
  rcases @decodeHeader_cases bs rest off dt b h with ⟨he, -⟩ | ⟨-, he⟩ | ⟨-, he⟩ | ⟨hu, -⟩
  · rw [he]
    exact Or.inl rfl
  · rw [he]
    exact decodeLiteralIncremental_kept dt bs off
  · rw [he]
    exact Or.inl rfl
  · exact absurd hu hb

/-! ## Turns of the loop -/

/-- The head of the loop: the table, the offset, and whether a size update may
    come. -/
structure Head where
  dt : DynamicTable
  off : Int
  allow : Bool

/-- What a turn leads to: another turn, with or without a header; the end of the
    block; or the end of the decoding. -/
inductive Turn where
  | next (h : Head) (hdr : Option Header)
  | done
  | stop (r : Res (List Header)) (dt : DynamicTable)

/-- The turn after decoding a representation. -/
def Turn.after (allow : Bool) : TableM (Option Header × Int) → Turn
  | (.right (hdr, off), dt) => .next ⟨dt, off, allow⟩ hdr
  | (.left e, dt) => .stop (.left e) dt
  | (.crash, dt) => .stop .crash dt
  | (.more, dt) => .stop .more dt

def turn (maxTableSize : Int) (bs : ByteString) (h : Head) : Turn :=
  if h.off ≥ bsLen bs then .done
  else if 0 ≤ h.off then
    match bs[h.off.toNat]? with
    | none => .stop .crash h.dt
    | some b =>
      if isUpdate b then
        if h.allow then Turn.after true (decodeDynamicTableUpdate h.dt maxTableSize bs h.off)
        else .stop (.left (.invalidTableSizeUpdate 0)) h.dt
      else Turn.after false (decodeHeader h.dt bs h.off)
  else .stop .crash h.dt

attribute [grind =] turn

/-- The loop from a head on. -/
def loop (maxTableSize : Int) (bs : ByteString) (n : Nat) (h : Head) (acc : List Header) :
    TableM (List Header) := decodeHeaderBlock.go maxTableSize bs n h.dt h.off acc h.allow

/-- A size update gives no header. -/
theorem decodeDynamicTableUpdate_none {hdr : Option Header} {off' : Int} {dt' : DynamicTable}
    (h : decodeDynamicTableUpdate dt maxTableSize bs off = (.right (hdr, off'), dt')) : hdr = none := by
  unfold decodeDynamicTableUpdate at h
  split at h
  · split at h
    · cases h
    · cases h
      rfl
  · cases h
  · cases h
  · cases h

/-- **The loop takes its turns.** -/
theorem loop_succ (n : Nat) (h : Head) (acc : List Header) :
    loop maxTableSize bs (n + 1) h acc =
      match turn maxTableSize bs h with
      | .next h' hdr => loop maxTableSize bs n h' (hdr.toList ++ acc)
      | .done => (.right acc.reverse, h.dt)
      | .stop r dt => (r, dt) := by
  obtain ⟨dt, off, allow⟩ := h
  unfold turn
  simp only [loop, decodeHeaderBlock.go]
  by_cases hend : off ≥ bsLen bs
  · simp only [if_pos hend]
  · simp only [if_neg hend]
    by_cases h0 : 0 ≤ off
    · simp only [if_pos h0]
      cases bs[off.toNat]? with
      | none => rfl
      | some b =>
        simp only
        by_cases hu : isUpdate b
        · have hu' : b &&& 0xE0 = 0x20 := hu
          simp only [if_pos hu, if_pos hu']
          cases allow with
          | false => rfl
          | true =>
            simp only [if_true]
            rcases hd : decodeDynamicTableUpdate dt maxTableSize bs off with ⟨r, dt'⟩
            cases r with
            | right p =>
              obtain ⟨hdr, off'⟩ := p
              cases decodeDynamicTableUpdate_none hd
              rfl
            | left e => rfl
            | crash => rfl
            | more => rfl
        · have hu' : ¬ b &&& 0xE0 = 0x20 := hu
          simp only [if_neg hu, if_neg hu']
          rcases decodeHeader dt bs off with ⟨r, dt'⟩
          cases r with
          | right p =>
            obtain ⟨hdr, off'⟩ := p
            cases hdr with
            | none => rfl
            | some hdr => rfl
          | left e => rfl
          | crash => rfl
          | more => rfl
    · simp only [if_neg h0]

/-- The heads that the loop comes to. -/
inductive Reaches (maxTableSize : Int) (bs : ByteString) (dt : DynamicTable) : Head → Prop
  | start : Reaches maxTableSize bs dt ⟨dt, 0, true⟩
  | turn {h h' : Head} {hdr : Option Header} (hr : Reaches maxTableSize bs dt h)
    (ht : turn maxTableSize bs h = .next h' hdr) : Reaches maxTableSize bs dt h'

/-! ## Safety -/

/-- A string is read at the offset `o`. -/
def StringRead (maxTableSize : Int) (bs : ByteString) (dt : DynamicTable) (o : Int) : Prop :=
  ∃ h, Reaches maxTableSize bs dt h ∧ HeaderString h.dt bs h.off o

/-- The decoder returns, everything that it reads leads forward within the block, and
    the table stays within its limits. -/
structure BlockSafe (maxTableSize : Int) (bs : ByteString) (dt : DynamicTable) : Prop where
  returns : (∃ headers, (decodeHeaderBlockWithMaxSize dt maxTableSize bs).1 = .right headers) ∨
    ∃ e, (decodeHeaderBlockWithMaxSize dt maxTableSize bs).1 = .left e
  integers : ∀ off n v off', n < 8 → decodeInteger bs off n = .right (v, off') →
    off < off' ∧ off' ≤ bsLen bs
  strings : ∀ off s off', StringRead maxTableSize bs dt off → decodeString bs off = .right (s, off') →
    off < off' ∧ off' ≤ bsLen bs
  headers : ∀ h hdr off' dt', Reaches maxTableSize bs dt h →
    decodeHeader h.dt bs h.off = (.right (hdr, off'), dt') → h.off < off' ∧ off' ≤ bsLen bs
  sizes : 0 ≤ (decodeHeaderBlockWithMaxSize dt maxTableSize bs).2.dtSize ∧
    (decodeHeaderBlockWithMaxSize dt maxTableSize bs).2.dtSize ≤
      (decodeHeaderBlockWithMaxSize dt maxTableSize bs).2.dtMaxSize ∧
    (decodeHeaderBlockWithMaxSize dt maxTableSize bs).2.dtMaxSize ≤ maxTableSize

/-- The block holds no string that ends too late, and no size from `2 ^ 63` on
    without a further size behind it. -/
structure Moderate (maxTableSize : Int) (bs : ByteString) (dt : DynamicTable) : Prop where
  strings : ∀ o, StringRead maxTableSize bs dt o → Fits bs o
  sizes : ∀ h size off', Reaches maxTableSize bs dt h → h.allow = true → UpdateAt bs h.off size off' →
    2 ^ 63 ≤ size → ∃ size' off'', UpdateAt bs off' size' off'' ∧ Accepted maxTableSize size'

/-! ## Moderate blocks are safe -/

/-- The invariant at the heads of the loop.  A negative limit is replaced at once. -/
structure HeadOk (maxTableSize : Int) (bs : ByteString) (h : Head) : Prop where
  nonneg : 0 ≤ h.off
  le : h.off ≤ bsLen bs
  bounded : h.dt.Bounded
  max_le : h.dt.dtMaxSize ≤ maxTableSize
  limit : 0 ≤ h.dt.dtMaxSize ∨
    h.allow = true ∧ ∃ size off', UpdateAt bs h.off size off' ∧ Accepted maxTableSize size

/-- The table at the end. -/
structure TableOk (maxTableSize : Int) (dt : DynamicTable) : Prop where
  bounded : dt.Bounded
  limit : 0 ≤ dt.dtMaxSize
  max_le : dt.dtMaxSize ≤ maxTableSize

variable {h : Head}

theorem UpdateAt.cursor {size : Nat} {off' : Int} {b : UInt8} (hu : UpdateAt bs off size off')
    (h : Cursor bs off (b :: rest)) : isUpdate b := by
  obtain ⟨b', rest', post, hdrop, hb, -, -⟩ := hu
  rw [h.drop] at hdrop
  cases hdrop
  exact hb

theorem UpdateAt.unique {size size' : Nat} {off' off'' : Int} (hu : UpdateAt bs off size off')
    (hu' : UpdateAt bs off size' off'') : size' = size ∧ off'' = off' := by
  obtain ⟨b, rest, post, hdrop, -, hp, rfl⟩ := hu
  obtain ⟨b', rest', post', hdrop', -, hp', rfl⟩ := hu'
  rw [← hdrop', hdrop, hp] at hp'
  cases hp'
  exact ⟨rfl, rfl⟩

/-- Where no update stands, the limit is in order. -/
theorem HeadOk.tableOk (hok : HeadOk maxTableSize bs h)
    (hno : ∀ size off', h.allow = true → UpdateAt bs h.off size off' → ¬ Accepted maxTableSize size) :
    TableOk maxTableSize h.dt := by
  refine ⟨hok.bounded, ?_, hok.max_le⟩
  rcases hok.limit with h0 | ⟨hallow, size, off', hu, ha⟩
  · exact h0
  · exact absurd ha (hno size off' hallow hu)

/-- **A turn keeps the invariant, or ends the decoding in order.** -/
theorem turn_ok (hs : bsLen bs < 2 ^ 63) (hmax : 0 ≤ maxTableSize) (hrange : InRange maxTableSize)
    (hmod : Moderate maxTableSize bs dt) (hr : Reaches maxTableSize bs dt h)
    (hok : HeadOk maxTableSize bs h) :
    match turn maxTableSize bs h with
    | .next h' _ => HeadOk maxTableSize bs h' ∧ h.off < h'.off
    | .done => TableOk maxTableSize h.dt
    | .stop r dt => (∃ e, r = .left e) ∧ TableOk maxTableSize dt := by
  have hcur := Cursor.at hok.nonneg hok.le hs
  cases hrest : bs.drop h.off.toNat with
  | nil =>
    rw [hrest] at hcur
    have hend := hcur.length_eq
    simp only [List.length_nil] at hend
    rw [turn, if_pos (by rw [bsLen]; omega)]
    refine hok.tableOk ?_
    rintro size off' - ⟨b, rest, post, hdrop, -⟩
    rw [hrest] at hdrop
    cases hdrop
  | cons b rest =>
    rw [hrest] at hcur
    rw [turn, if_neg (not_ge_bsLen hcur), if_pos hcur.nonneg, hcur.get]
    simp only
    by_cases hu : isUpdate b
    · rw [if_pos hu]
      by_cases hallow : h.allow = true
      · rw [if_pos hallow]
        rcases decodeDynamicTableUpdate_cases hcur hu h.dt hmax hrange with
          ⟨⟨e, he⟩, hno⟩ | ⟨size, off', hupd, ha, hlt, hle, he⟩
        · rw [he]
          exact ⟨⟨e, rfl⟩, hok.tableOk fun size off' _ hu => hno size off' hu⟩
        · rw [he]
          have hbound : size < 2 ^ 63 + 128 := by
            obtain ⟨b', rest', post, -, -, hp, -⟩ := hupd
            exact (prefixInteger_lt (by decide) hp).1
          have hword := ofWord_size hbound
          have hnle := (accepted_iff hmax hrange hbound).1 ha
          refine ⟨⟨by have := hok.nonneg; simp only; omega, hle, hok.bounded.toOk.setMaxSize_bounded _, ?_, ?_⟩, hlt⟩
          · rw [setMaxSize_dtMaxSize]
            omega
          · rw [setMaxSize_dtMaxSize]
            by_cases hbig : 2 ^ 63 ≤ size
            · exact Or.inr ⟨rfl, hmod.sizes h size off' hr hallow hupd hbig⟩
            · rw [hword, if_pos (by omega)]
              exact Or.inl (Int.natCast_nonneg _)
      · rw [if_neg hallow]
        exact ⟨⟨_, rfl⟩, hok.tableOk fun size off' h _ => absurd h hallow⟩
    · rw [if_neg hu]
      have hf := @decodeHeader_safe bs _ _ h.dt hcur (fun o ho => hmod.strings o ⟨h, hr, ho⟩)
      have hk := @decodeHeader_kept bs rest h.off h.dt b hcur hu
      have htab : TableOk maxTableSize h.dt :=
        hok.tableOk fun size off' _ hupd => absurd (hupd.cursor hcur) hu
      rcases hd : decodeHeader h.dt bs h.off with ⟨r, dt'⟩
      rw [hd] at hf hk
      have hmaxEq := hk.dtMaxSize_eq
      have htab' : TableOk maxTableSize dt' :=
        ⟨hk.bounded htab.bounded, hmaxEq ▸ htab.limit, hmaxEq ▸ htab.max_le⟩
      cases r with
      | right p =>
        refine ⟨⟨?_, hf.2, htab'.bounded, htab'.max_le, Or.inl htab'.limit⟩, hf.1⟩
        have := hf.1
        have := hok.nonneg
        simp only
        omega
      | left e => exact ⟨⟨e, rfl⟩, htab'⟩
      | crash => exact absurd hf id
      | more => exact absurd hf id

theorem reaches_ok (hs : bsLen bs < 2 ^ 63) (hmax : 0 ≤ maxTableSize) (hrange : InRange maxTableSize)
    (hmod : Moderate maxTableSize bs dt) (hstart : TableOk maxTableSize dt)
    (hr : Reaches maxTableSize bs dt h) : HeadOk maxTableSize bs h := by
  induction hr with
  | start => exact ⟨le_rfl, Int.natCast_nonneg _, hstart.bounded, hstart.max_le, Or.inl hstart.limit⟩
  | turn hr ht ih =>
    have := turn_ok hs hmax hrange hmod hr ih
    rw [ht] at this
    exact this.1

/-- **The loop of a moderate block returns, with the table in order.** -/
theorem loop_ok (hs : bsLen bs < 2 ^ 63) (hmax : 0 ≤ maxTableSize) (hrange : InRange maxTableSize)
    (hmod : Moderate maxTableSize bs dt) :
    ∀ (n : Nat) (h : Head) (acc : List Header), Reaches maxTableSize bs dt h → HeadOk maxTableSize bs h →
      bsLen bs - h.off < n →
      ((∃ headers, (loop maxTableSize bs n h acc).1 = .right headers) ∨
        ∃ e, (loop maxTableSize bs n h acc).1 = .left e) ∧
      TableOk maxTableSize (loop maxTableSize bs n h acc).2 := by
  intro n
  induction n with
  | zero =>
    intro h acc hr hok hn
    have := hok.le
    omega
  | succ n ih =>
    intro h acc hr hok hn
    have ht := turn_ok hs hmax hrange hmod hr hok
    rw [loop_succ]
    cases hturn : turn maxTableSize bs h with
    | next h' hdr =>
      rw [hturn] at ht
      exact ih h' _ (hr.turn hturn) ht.1 (by have := ht.2; omega)
    | done =>
      rw [hturn] at ht
      exact ⟨Or.inl ⟨_, rfl⟩, ht⟩
    | stop r dt =>
      rw [hturn] at ht
      obtain ⟨⟨e, rfl⟩, htab⟩ := ht
      exact ⟨Or.inr ⟨e, rfl⟩, htab⟩

/-! ## Safe blocks are moderate -/

/-- A turn that goes on goes forward. -/
theorem turn_forward (hs : bsLen bs < 2 ^ 63)
    (hhdr : ∀ hdr off' dt', decodeHeader h.dt bs h.off = (.right (hdr, off'), dt') →
      h.off < off' ∧ off' ≤ bsLen bs)
    {h' : Head} {hdr : Option Header} (ht : turn maxTableSize bs h = .next h' hdr) :
    0 ≤ h.off ∧ h.off < h'.off ∧ h'.off ≤ bsLen bs := by
  unfold turn at ht
  split at ht
  · cases ht
  · split at ht
    · rename_i h0
      refine ⟨h0, ?_⟩
      cases hget : bs[h.off.toNat]? with
      | none => rw [hget] at ht; cases ht
      | some b =>
        rw [hget] at ht
        simp only at ht
        split at ht
        · split at ht
          · have hf := @decodeDynamicTableUpdate_forward bs h.off h.dt hs h0 maxTableSize
            rcases hd : decodeDynamicTableUpdate h.dt maxTableSize bs h.off with ⟨r, dt'⟩
            rw [hd] at hf ht
            cases r with
            | right p => cases ht; exact hf
            | left e => cases ht
            | crash => cases ht
            | more => cases ht
          · cases ht
        · rcases hd : decodeHeader h.dt bs h.off with ⟨r, dt'⟩
          rw [hd] at ht
          cases r with
          | right p => cases ht; exact hhdr _ _ _ hd
          | left e => cases ht
          | crash => cases ht
          | more => cases ht
    · cases ht

/-- The loop goes through every head that it reaches. -/
theorem loop_of_reaches (hs : bsLen bs < 2 ^ 63) (hsafe : BlockSafe maxTableSize bs dt)
    (hr : Reaches maxTableSize bs dt h) :
    0 ≤ h.off ∧ ∃ (n : Nat) (acc : List Header), bsLen bs - h.off < n ∧
      decodeHeaderBlockWithMaxSize dt maxTableSize bs = loop maxTableSize bs n h acc := by
  induction hr with
  | start =>
    refine ⟨le_rfl, bs.length + 1, [], ?_, rfl⟩
    rw [bsLen]
    simp only
    omega
  | @turn h h' hdr hr ht ih =>
    obtain ⟨h0, n, acc, hn, hrun⟩ := ih
    obtain ⟨-, hlt, hle⟩ := turn_forward hs (fun hdr off' dt' => hsafe.headers h hdr off' dt' hr) ht
    obtain ⟨m, rfl⟩ : ∃ m, n = m + 1 := ⟨n - 1, by omega⟩
    refine ⟨by omega, m, hdr.toList ++ acc, by omega, ?_⟩
    rw [hrun, loop_succ, ht]

/-- Without an update, the limit stays as it is. -/
theorem turn_keeps (hs : bsLen bs < 2 ^ 63) (hmax : 0 ≤ maxTableSize) (hrange : InRange maxTableSize)
    (hno : h.allow = true → ∀ size off', UpdateAt bs h.off size off' → ¬ Accepted maxTableSize size) :
    match turn maxTableSize bs h with
    | .next h' _ => h'.dt.dtMaxSize = h.dt.dtMaxSize ∧ h'.allow = false
    | .done => True
    | .stop _ dt => dt.dtMaxSize = h.dt.dtMaxSize := by
  rw [turn]
  by_cases hend : h.off ≥ bsLen bs
  · rw [if_pos hend]
    trivial
  · rw [if_neg hend]
    by_cases h0 : 0 ≤ h.off
    · rw [if_pos h0]
      have hcur := Cursor.at h0 (by omega) hs
      cases hrest : bs.drop h.off.toNat with
      | nil =>
        rw [hrest] at hcur
        have hlen := hcur.length_eq
        simp only [List.length_nil] at hlen
        rw [bsLen] at hend
        omega
      | cons b rest =>
        rw [hrest] at hcur
        rw [hcur.get]
        simp only
        by_cases hu : isUpdate b
        · rw [if_pos hu]
          by_cases hallow : h.allow = true
          · rw [if_pos hallow]
            rcases decodeDynamicTableUpdate_cases hcur hu h.dt hmax hrange with
              ⟨⟨e, he⟩, -⟩ | ⟨size, off', hupd, ha, -⟩
            · rw [he]
              rfl
            · exact absurd ha (hno hallow size off' hupd)
          · rw [if_neg hallow]
        · rw [if_neg hu]
          have hk := (@decodeHeader_kept bs rest h.off h.dt b hcur hu).dtMaxSize_eq
          rcases hd : decodeHeader h.dt bs h.off with ⟨r, dt'⟩
          rw [hd] at hk
          cases r with
          | right p => exact ⟨hk, rfl⟩
          | left e => exact hk
          | crash => exact hk
          | more => exact hk
    · rw [if_neg h0]

theorem loop_keeps (hs : bsLen bs < 2 ^ 63) (hmax : 0 ≤ maxTableSize) (hrange : InRange maxTableSize) :
    ∀ (n : Nat) (h : Head) (acc : List Header),
      (h.allow = true → ∀ size off', UpdateAt bs h.off size off' → ¬ Accepted maxTableSize size) →
      (loop maxTableSize bs n h acc).2.dtMaxSize = h.dt.dtMaxSize := by
  intro n
  induction n with
  | zero => intro h acc hno; rfl
  | succ n ih =>
    intro h acc hno
    have ht := turn_keeps hs hmax hrange hno
    rw [loop_succ]
    cases hturn : turn maxTableSize bs h with
    | next h' hdr =>
      rw [hturn] at ht
      exact (ih h' _ (fun hallow => absurd hallow (by rw [ht.2]; decide))).trans ht.1
    | done => rfl
    | stop r dt => rw [hturn] at ht; exact ht

/-- A string is read within the block, when the string before it is read forward. -/
theorem stringRead_nonneg (hs : bsLen bs < 2 ^ 63)
    (hfwd : ∀ p s o', StringRead maxTableSize bs dt p → 0 ≤ p → decodeString bs p = .right (s, o') → p < o')
    {o : Int} (ho : StringRead maxTableSize bs dt o) : 0 ≤ o := by
  obtain ⟨h, hr, b, n, hget, hn, hlit⟩ := ho
  cases hlit with
  | name hint =>
    have := decodeInteger_right (literalPrefix_lt hn) hs hint
    omega
  | @value idx p _ name hint hname =>
    have hp := decodeInteger_right (literalPrefix_lt hn) hs hint
    by_cases hidx : idx = 0
    · subst hidx
      rw [decodeName, if_pos rfl] at hname
      cases hd : decodeString bs p with
      | right r =>
        rw [hd] at hname
        cases hname
        have := hfwd p _ _ ⟨h, hr, b, n, hget, hn, .name hint⟩ (by omega) hd
        omega
      | left e => rw [hd] at hname; cases hname
      | crash => rw [hd] at hname; cases hname
      | more => rw [hd] at hname; cases hname
    · rw [decodeName, if_neg hidx] at hname
      split at hname
      · cases hname
      · cases hname
        omega

theorem BlockSafe.moderate (hs : bsLen bs < 2 ^ 63) (hmax : 0 ≤ maxTableSize)
    (hrange : InRange maxTableSize) (hsafe : BlockSafe maxTableSize bs dt) :
    Moderate maxTableSize bs dt := by
  constructor
  · intro o ho
    by_contra hfit
    have h0 : 0 ≤ o := stringRead_nonneg hs (fun p s o' hp _ hd => (hsafe.strings p s o' hp hd).1) ho
    obtain ⟨s, off', hd, hback⟩ := decodeString_backward hs h0 hfit
    have := hsafe.strings o s off' ho hd
    omega
  · intro h size off' hr hallow hupd hbig
    by_contra hnext
    obtain ⟨h0, n, acc, hn, hrun⟩ := loop_of_reaches hs hsafe hr
    obtain ⟨b, rest, post, hdrop, hu, hp, -⟩ := id hupd
    have hle : h.off ≤ bsLen bs := by
      by_contra hgt
      rw [List.drop_eq_nil_of_le (by rw [bsLen] at hgt; omega)] at hdrop
      cases hdrop
    have hcur := Cursor.at h0 hle hs
    rw [hdrop] at hcur
    obtain ⟨m, rfl⟩ : ∃ m, n = m + 1 := ⟨n - 1, by omega⟩
    rcases decodeDynamicTableUpdate_cases hcur hu h.dt hmax hrange with
      ⟨-, hno⟩ | ⟨size', off'', hupd', -, -, -, he⟩
    · exact hno size off' hupd (Or.inr hbig)
    · obtain ⟨rfl, rfl⟩ := hupd.unique hupd'
      -- the limit is negative from here on
      have ht : turn maxTableSize bs h = .next ⟨setMaxSize h.dt (ofWord (UInt64.ofNat size')), off'', true⟩ none := by
        rw [turn, if_neg (not_ge_bsLen hcur), if_pos h0, hcur.get]
        simp only
        rw [if_pos hu, if_pos hallow, he]
        rfl
      have hkeep := loop_keeps hs hmax hrange m ⟨setMaxSize h.dt (ofWord (UInt64.ofNat size')), off'', true⟩
        ((none : Option Header).toList ++ acc)
        (fun _ size off hupd ha => hnext ⟨size, off, hupd, ha⟩)
      rw [loop_succ, ht] at hrun
      have hsizes := hsafe.sizes
      rw [hrun, hkeep, setMaxSize_dtMaxSize,
        ofWord_size (prefixInteger_lt (by decide) hp).1, if_neg (by omega)] at hsizes
      have := (prefixInteger_lt (by decide) hp).1
      omega

/-- A name whose length is `2 ^ 63 + 126`: the value is then read before the block. -/
def longName : ByteString := [0x00, 0x7F, 0xFF, 0xFF, 0xFF, 0xFF, 0xFF, 0xFF, 0xFF, 0xFF, 0x7F]

/-- A table size of `2 ^ 63 + 30`. -/
def largeSize : ByteString := [0x3F, 0xFF, 0xFF, 0xFF, 0xFF, 0xFF, 0xFF, 0xFF, 0xFF, 0x7F]

end Wireform.Http2.Hpack
