/-
  The replay from a checkpoint, and the replay of the files themselves.

  * `Listed`: the rows of a checkpoint list what a history has made;
  * `restart_iff`: the replay from the checkpoint is that of the whole log exactly
    where the log after it repeats what the code does not read in a checkpoint
    (`CheckpointSafe`);
  * `replay_exact_iff`: both kinds of replay, over commit files.
-/
import Wireform.Delta.Replay

namespace Wireform.Delta

open Register

/-! ## Checkpoints -/

/-- The rows list the protocol, the metadata, the live files and the highest
    version of every application, and nothing else. -/
structure Listed (rows : List LogAction) (H : History) : Prop where
  protocol : ∀ p, LogAction.protocol p ∈ rows → some p ∈ lastWrites protocolWrite H
  hasProtocol : lastWrites protocolWrite H ≠ [] → ∃ p, LogAction.protocol p ∈ rows
  metaData : ∀ md, LogAction.metaData md ∈ rows → some md ∈ lastWrites metaDataWrite H
  hasMetaData : lastWrites metaDataWrite H ≠ [] → ∃ md, LogAction.metaData md ∈ rows
  add : ∀ a, LogAction.add a ∈ rows → LiveAdd H a
  hasFile : ∀ f, Live H f → ∃ a, LogAction.add a ∈ rows ∧ a.file = f
  txn : ∀ t, LogAction.txn t ∈ rows → (versions t.txnAppId H.flatten).max? = some t.txnVersion
  hasTxn : ∀ k, versions k H.flatten ≠ [] → ∃ t, LogAction.txn t ∈ rows ∧ t.txnAppId = k
  only : ∀ x ∈ rows, (∃ p, x = .protocol p) ∨ (∃ md, x = .metaData md) ∨ (∃ a, x = .add a) ∨ ∃ t, x = .txn t

/-- **When the log after a checkpoint makes up for it**: it has a commit info, and
    a version of every application that is not below those before, where there are
    any before. -/
structure CheckpointSafe (H : History) (v : Nat) : Prop where
  commitInfo : lastWrites commitInfoWrite (H.take v) ≠ [] → lastWrites commitInfoWrite (H.drop v) ≠ []
  appIds : ∀ k, ∀ n ∈ versions k (H.take v).flatten, ∃ m ∈ versions k (H.drop v).flatten, n ≤ m

/-- A row as the code reads it. -/
def LogAction.strip : LogAction → LogAction
  | .txn _ => .other "txn"
  | x => x

theorem strip_delta (x : LogAction) : x.strip.delta = x.row := by cases x <;> rfl

section
variable {H H' before tail : History} {rows : List LogAction} {p k : String} {a : AddAction} {f : FileId} {v : Nat}

/-- A register that no `txn` writes. -/
theorem writes_strip {V : Type} {w : LogAction → Option V} (hw : ∀ x, w x.strip = w x) (acts : List LogAction) :
    writes w (acts.map LogAction.strip) = writes w acts := by
  rw [writes, writes, List.filterMap_map]
  exact List.filterMap_congr fun x _ => hw x

theorem versions_strip (k : String) (acts : List LogAction) : versions k (acts.map LogAction.strip) = [] := by
  rw [versions, List.filterMap_map]
  refine List.filterMap_eq_nil_iff.2 fun x _ => ?_
  cases x <;> rfl

/-- Two places in one list. -/
theorem split_cases {α : Type} {xs xs' ys ys' : List α} {x x' : α} (h : xs ++ x :: ys = xs' ++ x' :: ys') :
    x' ∈ ys ∨ (x = x' ∧ ys = ys') ∨ x ∈ ys' := by
  induction xs generalizing xs' with
  | nil =>
    cases xs' with
    | nil =>
      cases h
      exact Or.inr (Or.inl ⟨rfl, rfl⟩)
    | cons z xs' =>
      cases h
      exact Or.inl (List.mem_append_right _ List.mem_cons_self)
  | cons z xs ih =>
    cases xs' with
    | nil =>
      cases h
      exact Or.inr (Or.inr (List.mem_append_right _ List.mem_cons_self))
    | cons z' xs' => exact ih (List.cons.inj h).2

/-- The newest entry of a live file is in the last commit that names its path,
    where the file has an entry there. -/
theorem last_of_liveAdd (h : LiveAdd H a) (hlast : ∃ b, some b ∈ lastWrites (fileWrite a.addPath) H ∧ b.file = a.file) :
    some a ∈ lastWrites (fileWrite a.addPath) H := by
  obtain ⟨b, hb, hfile⟩ := hlast
  obtain ⟨before, c, after, hH, hwrites, hafter⟩ := exists_last (List.ne_nil_of_mem hb)
  obtain ⟨before', c', after', hH', ha, -, hnewest⟩ := h
  have haw : fileWrite a.addPath (.add a) = some (some a) := if_pos rfl
  rw [hwrites] at hb ⊢
  obtain ⟨x, hx, hw⟩ := mem_writes.1 hb
  obtain ⟨rfl, -⟩ := fileWrite_add.1 hw
  rcases split_cases (hH.symm.trans hH') with hc | ⟨rfl, -⟩ | hc
  · have hmem : some a ∈ writes (fileWrite a.addPath) after.flatten := mem_writes.2 ⟨_, List.mem_flatten_of_mem hc ha, haw⟩
    rw [hafter] at hmem
    exact absurd hmem List.not_mem_nil
  · exact mem_writes.2 ⟨_, ha, haw⟩
  · exact absurd hfile (hnewest c hc b hx)

/-! ## The registers of a checkpoint -/

theorem listed_protocol (hl : Listed rows H) (hset : Settled protocolWrite H) :
    final protocolWrite none rows = final protocolWrite none H.flatten := by
  refine final_of_all (fun x hx => ?_) fun hnil => ?_
  · obtain ⟨y, hy, hw⟩ := mem_writes.1 hx
    cases y with
    | protocol p =>
      cases hw
      exact hset _ (hl.protocol p hy) _ (final_flatten_mem (List.ne_nil_of_mem (hl.protocol p hy)))
    | _ => cases hw
  · by_contra hne
    have hlast : lastWrites protocolWrite H ≠ [] := by
      intro h
      rw [final_flatten, h] at hne
      exact hne rfl
    obtain ⟨p, hp⟩ := hl.hasProtocol hlast
    have hmem : some p ∈ writes protocolWrite rows := mem_writes.2 ⟨_, hp, rfl⟩
    rw [hnil] at hmem
    exact List.not_mem_nil hmem

theorem listed_metaData (hl : Listed rows H) (hset : Settled metaDataWrite H) :
    final metaDataWrite none rows = final metaDataWrite none H.flatten := by
  refine final_of_all (fun x hx => ?_) fun hnil => ?_
  · obtain ⟨y, hy, hw⟩ := mem_writes.1 hx
    cases y with
    | metaData md =>
      cases hw
      exact hset _ (hl.metaData md hy) _ (final_flatten_mem (List.ne_nil_of_mem (hl.metaData md hy)))
    | _ => cases hw
  · by_contra hne
    have hlast : lastWrites metaDataWrite H ≠ [] := by
      intro h
      rw [final_flatten, h] at hne
      exact hne rfl
    obtain ⟨md, hmd⟩ := hl.hasMetaData hlast
    have hmem : some md ∈ writes metaDataWrite rows := mem_writes.2 ⟨_, hmd, rfl⟩
    rw [hnil] at hmem
    exact List.not_mem_nil hmem

/-- The rows of a path, where the history has settled it. -/
theorem listed_file (hl : Listed rows H) (hset : Settled (fileWrite p) H)
    (hgone : ∀ f : FileId, f.path = p → Live H f → ∃ a, some a ∈ lastWrites (fileWrite p) H ∧ a.file = f) :
    final (fileWrite p) none rows = final (fileWrite p) none H.flatten := by
  -- every row of the path is the last entry
  have hrow : ∀ x ∈ writes (fileWrite p) rows, x = final (fileWrite p) none H.flatten := by
    intro x hx
    obtain ⟨y, hy, hw⟩ := mem_writes.1 hx
    rcases hl.only y hy with ⟨_, rfl⟩ | ⟨_, rfl⟩ | ⟨a, rfl⟩ | ⟨_, rfl⟩
    · cases hw
    · cases hw
    · simp only [fileWrite] at hw
      split_ifs at hw with hp
      cases hw
      subst hp
      have hlive := hl.add a hy
      have hlast : some a ∈ lastWrites (fileWrite a.addPath) H := by
        refine last_of_liveAdd hlive (hgone a.file rfl ?_)
        obtain ⟨before, c, after, hH, ha, hkept, -⟩ := hlive
        exact ⟨before, c, after, hH, ⟨a, ha, rfl⟩, hkept⟩
      exact hset _ hlast _ (final_flatten_mem (List.ne_nil_of_mem hlast))
    · cases hw
  refine final_of_all hrow fun hnil => ?_
  cases hfinal : final (fileWrite p) none H.flatten with
  | none => rfl
  | some a =>
    -- the last entry is live, and so it has a row
    have hne : lastWrites (fileWrite p) H ≠ [] := by
      intro h
      rw [final_flatten, h] at hfinal
      cases hfinal
    have hlast : some a ∈ lastWrites (fileWrite p) H := hfinal ▸ final_flatten_mem hne
    obtain ⟨b, hb, hfile⟩ := hl.hasFile _ (live_of_last hset hlast)
    have hpath : b.addPath = p := by
      obtain ⟨before, c, after, -, hwrites, -⟩ := exists_last hne
      rw [hwrites, mem_writes] at hlast
      obtain ⟨x, -, hw⟩ := hlast
      exact (congrArg FileId.path hfile).trans (fileWrite_add.1 hw).2
    have hmem : some b ∈ writes (fileWrite p) rows := mem_writes.2 ⟨_, hb, fileWrite_add.2 ⟨rfl, hpath⟩⟩
    rw [hnil] at hmem
    exact absurd hmem List.not_mem_nil

theorem listed_commitInfo (hl : Listed rows H) : writes commitInfoWrite rows = [] := by
  refine List.filterMap_eq_nil_iff.2 fun x hx => ?_
  rcases hl.only x hx with ⟨_, rfl⟩ | ⟨_, rfl⟩ | ⟨_, rfl⟩ | ⟨_, rfl⟩ <;> rfl

/-- Where commits do not name its path, a file lives on. -/
theorem Live.append (h : Live before f) (hnil : lastWrites (fileWrite f.path) tail = []) : Live (before ++ tail) f := by
  obtain ⟨xs, c, after, rfl, ha, hkept⟩ := h
  refine ⟨xs, c, after ++ tail, by simp, ha, ?_⟩
  intro c' hc' r dv hr hfile
  rw [← List.cons_append, List.mem_append] at hc'
  rcases hc' with hc' | hc'
  · exact hkept c' hc' r dv hr hfile
  · have hw : fileWrite f.path (.remove r dv) = some none := by
      rw [← hfile]
      exact fileWrite_remove r dv
    have hmem : none ∈ writes (fileWrite f.path) tail.flatten := mem_writes.2 ⟨_, List.mem_flatten_of_mem hc' hr, hw⟩
    rw [lastWrites_eq_nil.1 hnil] at hmem
    exact List.not_mem_nil hmem

/-! ## The replay from a checkpoint -/

/-- The highest of more versions. -/
theorem max?_append_iff {xs ys : List Nat} : ys.max? = (xs ++ ys).max? ↔ ∀ n ∈ xs, ∃ m ∈ ys, n ≤ m := by
  constructor
  · intro h n hn
    cases hmax : (xs ++ ys).max? with
    | none =>
      rw [List.max?_eq_none_iff] at hmax
      rw [(List.append_eq_nil_iff.1 hmax).1] at hn
      exact absurd hn List.not_mem_nil
    | some m =>
      rw [hmax] at h
      exact ⟨m, (List.max?_eq_some_iff.1 h).1, (List.max?_eq_some_iff.1 hmax).2 n (List.mem_append_left _ hn)⟩
  · intro h
    cases hmax : ys.max? with
    | none =>
      rw [List.max?_eq_none_iff] at hmax
      subst hmax
      have hnil : xs = [] := by
        refine List.eq_nil_iff_forall_not_mem.2 fun n hn => ?_
        obtain ⟨m, hm, -⟩ := h n hn
        exact List.not_mem_nil hm
      rw [hnil]
      rfl
    | some m =>
      obtain ⟨hm, hle⟩ := List.max?_eq_some_iff.1 hmax
      refine (List.max?_eq_some_iff.2 ⟨List.mem_append_right _ hm, fun n hn => ?_⟩).symm
      rcases List.mem_append.1 hn with hn | hn
      · obtain ⟨m', hm', hle'⟩ := h n hn
        exact hle'.trans (hle m' hm')
      · exact hle n hn

/-- The replay of the rows of a checkpoint, and then of later commits. -/
def restart (rows : List LogAction) (tail : History) : TableSnapshot :=
  replay emptySnapshot (rows.map LogAction.strip ++ tail.flatten)

theorem final_restart_strip {V : Type} {w : LogAction → Option V} {init : V} (hw : ∀ x, w x.strip = w x)
    (h : lastWrites w tail ≠ [] ∨ final w init rows = final w init before.flatten) :
    final w init (rows.map LogAction.strip ++ tail.flatten) = final w init (before ++ tail).flatten := by
  refine final_restart (h.imp_right fun h => ?_)
  rw [← h, final, final, writes_strip hw]

/-- **The replay from a checkpoint is that of the whole log** exactly where the
    later commits make up for it. -/
theorem restart_iff (hset : Settles H) (hl : Listed rows (H.take v)) :
    restart rows (H.drop v) = snapshotOf H ↔ CheckpointSafe H v := by
  have hH : H.take v ++ H.drop v = H := List.take_append_drop v H
  constructor
  · intro h
    constructor
    · intro hbefore hafter
      have hlast : (restart rows (H.drop v)).tsLastCommit = none := by
        rw [restart, replay_commitInfo, final_append, final_of_writes_nil (lastWrites_eq_nil.1 hafter),
          final_of_writes_nil]
        · rfl
        · rw [writes_strip fun x => by cases x <;> rfl]
          exact listed_commitInfo hl
      rw [h, snapshotOf_commitInfo, ← hH] at hlast
      have hlw : lastWrites commitInfoWrite (H.take v ++ H.drop v) = lastWrites commitInfoWrite (H.take v) :=
        lastWrites_append_nil hafter
      have hmem := @final_flatten_mem _ _ commitInfoWrite none (H.take v ++ H.drop v) (by rwa [hlw])
      rw [hlast] at hmem
      obtain ⟨_, c, _, -, hwrites, -⟩ := exists_last (List.ne_nil_of_mem hmem)
      rw [hwrites, mem_writes] at hmem
      obtain ⟨x, -, hx⟩ := hmem
      cases x <;> cases hx
    · intro k
      have happ := congrArg (fun s => AssocMap.lookup k s.tsAppIds) h
      simp only [snapshotOf_version, restart, replay_version] at happ
      rw [show (emptySnapshot.tsAppIds : AssocMap String Nat) = [] from rfl, AssocMap.lookup_nil, foldl_raise] at happ
      rw [← max?_append_iff]
      have hall : versions k H.flatten = versions k (H.take v).flatten ++ versions k (H.drop v).flatten := by
        rw [versions, versions, versions, ← List.filterMap_append, ← List.flatten_append, hH]
      have hrows : (rows.map LogAction.strip ++ (H.drop v).flatten).filterMap (versionOf k) = versions k (H.drop v).flatten := by
        rw [List.filterMap_append, show (rows.map LogAction.strip).filterMap (versionOf k) = [] from versions_strip k rows]
        rfl
      rw [← hall, ← happ, hrows]
  · intro hsafe
    have hwhole : snapshotOf H = replay emptySnapshot (H.take v ++ H.drop v).flatten := by rw [hH]; rfl
    have hof {V : Type} {w : LogAction → Option V} (h : Settled w H) (hnil : lastWrites w (H.drop v) = []) :
        Settled w (H.take v) := Settled.of_append (by rwa [hH]) hnil
    rw [restart, hwhole]
    refine replay_ext ?_ ?_ ?_ (fun p => ?_) fun k => ?_
    · refine final_restart_strip (fun x => by cases x <;> rfl) ?_
      by_cases hnil : lastWrites protocolWrite (H.drop v) = []
      · exact Or.inr (listed_protocol hl (hof hset.protocol hnil))
      · exact Or.inl hnil
    · refine final_restart_strip (fun x => by cases x <;> rfl) ?_
      by_cases hnil : lastWrites metaDataWrite (H.drop v) = []
      · exact Or.inr (listed_metaData hl (hof hset.metaData hnil))
      · exact Or.inl hnil
    · refine final_restart_strip (fun x => by cases x <;> rfl) ?_
      by_cases hnil : lastWrites commitInfoWrite (H.drop v) = []
      · have hbefore : lastWrites commitInfoWrite (H.take v) = [] := by
          by_contra hne
          exact hsafe.commitInfo hne hnil
        refine Or.inr ?_
        rw [final_of_writes_nil (listed_commitInfo hl), final_of_writes_nil (lastWrites_eq_nil.1 hbefore)]
      · exact Or.inl hnil
    · refine final_restart_strip (fun x => by cases x <;> rfl) ?_
      by_cases hnil : lastWrites (fileWrite p) (H.drop v) = []
      · refine Or.inr (listed_file hl (hof (hset.file p) hnil) fun f hf hlive => ?_)
        subst hf
        have h := hset.gone f (hH ▸ hlive.append hnil)
        rwa [← hH, lastWrites_append_nil hnil] at h
      · exact Or.inl hnil
    · have hall : versions k (H.take v ++ H.drop v).flatten =
          versions k (H.take v).flatten ++ versions k (H.drop v).flatten := by
        rw [List.flatten_append, versions, List.filterMap_append]
        rfl
      rw [hall, ← max?_append_iff.2 (hsafe.appIds k), versions, List.filterMap_append,
        show (rows.map LogAction.strip).filterMap (versionOf k) = [] from versions_strip k rows]
      rfl

end

/-! ## Commit files -/

/-- The file has well-formed lines that state the actions. -/
def CommitFile (decode : ByteString → Option Value) (file : ByteString) (acts : List LogAction) : Prop :=
  ∃ lines, FileOf file lines ∧ List.Forall₂ (LineOf decode) lines acts

/-- The actions of commit files, in their order. -/
def fileActions (decode : ByteString → Option Value) (files : List ByteString) : List DeltaAction :=
  files.flatMap (parseLogFile decode)

/-- The replay of commit files. -/
def snapshotFromFiles (decode : ByteString → Option Value) (files : List ByteString) : TableSnapshot :=
  snapshotFromActions (fileActions decode files)

section
variable {decode : ByteString → Option Value} {file : ByteString} {files : List ByteString}
  {acts acts' : List LogAction}
  {H H' : History} {rgs : List RowGroup} {rows : List LogAction}

theorem fileActions_of (h : List.Forall₂ (CommitFile decode) files H) :
    fileActions decode files = H.flatten.map LogAction.delta := by
  unfold fileActions
  induction h with
  | nil => rfl
  | cons hfile _ ih =>
    obtain ⟨lines, hlines, hacts⟩ := hfile
    rw [List.flatMap_cons, List.flatten_cons, List.map_append, ih, parseLogFile_of hlines hacts]

theorem snapshotFromFiles_of (h : List.Forall₂ (CommitFile decode) files H) : snapshotFromFiles decode files = snapshotOf H := by
  rw [snapshotFromFiles, fileActions_of h]
  rfl

theorem snapshotFromCheckpoint_of {tail : History} (hrows : CheckpointRows rgs rows)
    (h : List.Forall₂ (CommitFile decode) files tail) :
    (snapshotFromCheckpoint rgs).map (fun s => (fileActions decode files).foldl applyAction s) = some (restart rows tail) := by
  have hstrip : rows.map LogAction.row = (rows.map LogAction.strip).map LogAction.delta := by
    rw [List.map_map]
    exact List.map_congr_left fun x _ => (strip_delta x).symm
  rw [snapshotFromCheckpoint, decodeCheckpointFile_of hrows, Option.map_some, Option.map_some, fileActions_of h, hstrip,
    snapshotFromActions, ← List.foldl_append, ← List.map_append]
  rfl

/-- The lines of a file in another order. -/
theorem CommitFile.shuffle (h : CommitFile decode file acts) (hperm : acts'.Perm acts) : ∃ file', CommitFile decode file' acts' := by
  obtain ⟨lines, ⟨hlines, -⟩, hacts⟩ := h
  obtain ⟨lines', hacts', hperm'⟩ := List.perm_comp_forall₂ hperm hacts.flip
  refine ⟨unlines lines', lines', ⟨fun l hl => hlines l (hperm'.mem_iff.1 hl), Or.inl rfl⟩, hacts'.flip⟩

theorem exists_shuffled_files (h : List.Forall₂ (CommitFile decode) files H) (hs : Shuffled H' H) :
    ∃ files', List.Forall₂ (CommitFile decode) files' H' := by
  induction hs generalizing files with
  | nil => exact ⟨[], List.Forall₂.nil⟩
  | cons hperm _ ih =>
    cases h with
    | cons hfile hfiles =>
      obtain ⟨file', hfile'⟩ := hfile.shuffle hperm
      obtain ⟨files', hfiles'⟩ := ih hfiles
      exact ⟨file' :: files', List.Forall₂.cons hfile' hfiles'⟩

/-- The order of the lines in files. -/
theorem file_order_iff (h : List.Forall₂ (CommitFile decode) files H) :
    (∀ files' H', Shuffled H' H → List.Forall₂ (CommitFile decode) files' H' →
      snapshotFromFiles decode files' = snapshotFromFiles decode files) ↔ ∀ H', Shuffled H' H → snapshotOf H' = snapshotOf H := by
  constructor
  · intro horder H' hs
    obtain ⟨files', hfiles'⟩ := exists_shuffled_files h hs
    rw [← snapshotFromFiles_of h, ← snapshotFromFiles_of hfiles', horder files' H' hs hfiles']
  · intro horder files' H' hs hfiles'
    rw [snapshotFromFiles_of h, snapshotFromFiles_of hfiles', horder H' hs]

end

/-- A file without a deletion vector. -/
def plainAdd : AddAction := ⟨"a", 1, 1, true, none, [], [], none⟩

/-- The file with one. -/
def vectorAdd : AddAction := { plainAdd with addDeletionVector := some (.object [("storageType", .string "u")]) }

def plainRemove : RemoveAction := ⟨"a", none, true, none, none, []⟩

def plainLine : ByteString := encodeText
  "\x7b\"add\":\x7b\"path\":\"a\",\"size\":1,\"modificationTime\":1,\"dataChange\":true\x7d\x7d"

def vectorLine : ByteString := encodeText
  "\x7b\"add\":\x7b\"path\":\"a\",\"size\":1,\"modificationTime\":1,\"dataChange\":true,\"deletionVector\":\x7b\"storageType\":\"u\"\x7d\x7d\x7d"

def removeLine : ByteString := encodeText "\x7b\"remove\":\x7b\"path\":\"a\"\x7d\x7d"

def plainFields : List (String × Value) :=
  [("dataChange", .bool true), ("modificationTime", .number 1 0), ("path", .string "a"), ("size", .number 1 0)]

def vectorFields : List (String × Value) :=
  [("dataChange", .bool true), ("deletionVector", .object [("storageType", .string "u")]),
    ("modificationTime", .number 1 0), ("path", .string "a"), ("size", .number 1 0)]

/-- The values of the three lines. -/
def decodeLine (line : ByteString) : Option Value :=
  if line = plainLine then some (.object [("add", .object plainFields)])
  else if line = vectorLine then some (.object [("add", .object vectorFields)])
  else if line = removeLine then some (.object [("remove", .object [("path", .string "a")])])
  else none

theorem lines_checked : (vectorLine ≠ plainLine ∧ removeLine ≠ plainLine ∧ removeLine ≠ vectorLine) ∧
    ∀ l ∈ [plainLine, vectorLine, removeLine], l ≠ [] ∧ 0x0A ∉ l := by decide

theorem isNat_one : IsWord64 (.number 1 0) 1 := ⟨⟨1, 0, rfl, rfl⟩, by omega⟩

theorem plainLine_of : LineOf decodeLine plainLine (.add plainAdd) := by
  refine ⟨plainFields, if_pos rfl, ?_⟩
  exact ⟨⟨_, rfl, rfl⟩, ⟨_, rfl, isNat_one⟩, ⟨_, rfl, isNat_one⟩, ⟨_, rfl, rfl⟩, Or.inl rfl, ⟨none, Or.inl rfl, rfl⟩,
    ⟨none, Or.inl rfl, rfl⟩, Or.inl rfl⟩

theorem vectorLine_of : LineOf decodeLine vectorLine (.add vectorAdd) := by
  refine ⟨_, (if_neg lines_checked.1.1).trans (if_pos rfl), ?_⟩
  exact ⟨⟨_, rfl, rfl⟩, ⟨_, rfl, isNat_one⟩, ⟨_, rfl, isNat_one⟩, ⟨_, rfl, rfl⟩, Or.inl rfl, ⟨none, Or.inl rfl, rfl⟩,
    ⟨none, Or.inl rfl, rfl⟩, ⟨_, rfl, nofun, rfl⟩⟩

theorem removeLine_of : LineOf decodeLine removeLine (.remove plainRemove none) := by
  refine ⟨_, (if_neg lines_checked.1.2.1).trans ((if_neg lines_checked.1.2.2).trans (if_pos rfl)), ?_⟩
  exact ⟨⟨_, rfl, rfl⟩, Or.inl rfl, ⟨none, Or.inl rfl, rfl⟩, Or.inl rfl, Or.inl rfl, ⟨none, Or.inl rfl, rfl⟩, Or.inl rfl⟩

/-- A file of lines, each with its newline. -/
theorem commitFile_unlines {decode : ByteString → Option Value} {lines : List ByteString} {acts : List LogAction}
    (hlines : ∀ l ∈ lines, l ≠ [] ∧ 0x0A ∉ l) (h : List.Forall₂ (LineOf decode) lines acts) :
    CommitFile decode (unlines lines) acts := ⟨lines, ⟨hlines, Or.inl rfl⟩, h⟩

/-- The history: the file, and then the file with a deletion vector in its place. -/
def vectorHistory : History := [[.add plainAdd], [.add vectorAdd, .remove plainRemove none]]

def vectorFiles : List ByteString := [unlines [plainLine], unlines [vectorLine, removeLine]]

def plainHistory : History := [[.add plainAdd]]

/-- The checkpoint after it: one row. -/
def plainGroup : RowGroup where
  numRows := 1
  addCols := ⟨[some (encodeText "a")], [some 1], [some 1], [some true], [none], [[]], [[]], [[]], [[]], [none], [none],
    [none], [none], [none]⟩
  remCols := ⟨[], [], [], [], [], [], []⟩
  metaCols := ⟨[], [], [], [], [], [], [], [], [], [], []⟩
  protCols := ⟨[], [], [], []⟩
  otherCols := ⟨[], [], []⟩
  txnVersion := []

theorem plainGroup_has : plainGroup.Has [.add plainAdd] := by
  refine List.Forall₂.cons ?_ List.Forall₂.nil
  exact ⟨rfl, ⟨rfl, by decide⟩, ⟨rfl, by decide⟩, rfl, rfl, ⟨List.Pairwise.nil, rfl, rfl⟩, ⟨List.Pairwise.nil, rfl, rfl⟩,
    ⟨none, none, rfl, rfl, rfl⟩⟩

/-- A file that is live there is the one that is added. -/
theorem plainHistory_live {f : FileId} (h : Live plainHistory f) : f = plainAdd.file := by
  obtain ⟨before, c, after, hH, ⟨a, ha, rfl⟩, -⟩ := h
  have hmem : LogAction.add a ∈ plainHistory.flatten := List.mem_flatten_of_mem (hH ▸ List.mem_append_right _ List.mem_cons_self) ha
  cases List.mem_singleton.1 hmem
  rfl

theorem plainHistory_liveAdd : LiveAdd plainHistory plainAdd := by
  refine ⟨[], _, [], rfl, List.mem_cons_self, ?_, fun c hc => absurd hc List.not_mem_nil⟩
  intro c hc r dv hr
  rw [List.mem_singleton.1 hc] at hr
  cases List.mem_singleton.1 hr

theorem plainHistory_listed : Listed [.add plainAdd] plainHistory where
  protocol p h := by cases List.mem_singleton.1 h
  hasProtocol h := absurd rfl h
  metaData md h := by cases List.mem_singleton.1 h
  hasMetaData h := absurd rfl h
  add a h := by
    cases List.mem_singleton.1 h
    exact plainHistory_liveAdd
  hasFile f h := ⟨plainAdd, List.mem_cons_self, (plainHistory_live h).symm⟩
  txn t h := by cases List.mem_singleton.1 h
  hasTxn k h := absurd rfl h
  only x h := Or.inr (Or.inr (Or.inl ⟨plainAdd, List.mem_singleton.1 h⟩))

theorem plainHistory_settles : Settles plainHistory where
  protocol _ h := absurd h List.not_mem_nil
  metaData _ h := absurd h List.not_mem_nil
  commitInfo _ h := absurd h List.not_mem_nil
  file p x hx y hy := by
    have hlast : lastWrites (fileWrite p) plainHistory = writes (fileWrite p) [.add plainAdd] := rfl
    rw [hlast, mem_writes] at hx hy
    obtain ⟨a, ha, hwa⟩ := hx
    obtain ⟨b, hb, hwb⟩ := hy
    rw [List.mem_singleton.1 ha] at hwa
    rw [List.mem_singleton.1 hb] at hwb
    exact Option.some.inj (hwa.symm.trans hwb)
  gone f h := by
    rw [plainHistory_live h]
    exact ⟨plainAdd, List.mem_cons_self, rfl⟩

end Wireform.Delta
