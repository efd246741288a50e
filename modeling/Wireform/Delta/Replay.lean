/-
  The replay of a Delta log, and the table it stands for.

  A history is a list of commits; a file is a path with a deletion vector.

  * `Live`, `LiveAdd`: the files that are added and not removed by the same or a
    later commit, and their newest entries;
  * `replay_*`: each part of a snapshot is a register of the history;
  * `Settles`, `CheckpointSafe`: when the replay does not depend on the order of
    the lines and names the live files, and when it may start from a checkpoint;
  * `replay_exact_iff`: it is right exactly then.
-/
import Wireform.Register
import Wireform.Delta.Rows

namespace Wireform.Delta

open Register

/-! ## Histories -/

/-- A file of the table. -/
structure FileId where
  path : String
  deletionVector : Option Value

def AddAction.file (a : AddAction) : FileId := ⟨a.addPath, a.addDeletionVector⟩

abbrev History := List (List LogAction)

/-- The commits do not remove the file. -/
def Kept (commits : History) (f : FileId) : Prop :=
  ∀ c ∈ commits, ∀ r dv, LogAction.remove r dv ∈ c → (⟨r.removePath, dv⟩ : FileId) ≠ f

/-- The file is added, and not removed by the same or a later commit. -/
def Live (H : History) (f : FileId) : Prop :=
  ∃ before c after, H = before ++ c :: after ∧ (∃ a, LogAction.add a ∈ c ∧ a.file = f) ∧ Kept (c :: after) f

/-- The newest entry of a live file. -/
def LiveAdd (H : History) (a : AddAction) : Prop :=
  ∃ before c after, H = before ++ c :: after ∧ LogAction.add a ∈ c ∧ Kept (c :: after) a.file ∧
    ∀ c' ∈ after, ∀ a', LogAction.add a' ∈ c' → a'.file ≠ a.file

/-- The files of a snapshot. -/
def TableSnapshot.HasFile (s : TableSnapshot) (f : FileId) : Prop :=
  ∃ a, AssocMap.lookup f.path s.tsFiles = some a ∧ a.file = f

/-! ## Registers -/

def protocolWrite : LogAction → Option (Option ProtocolAction)
  | .protocol p => some (some p)
  | _ => none

def metaDataWrite : LogAction → Option (Option MetaDataAction)
  | .metaData md => some (some md)
  | _ => none

def commitInfoWrite : LogAction → Option (Option CommitInfoAction)
  | .commitInfo ci => some (some ci)
  | _ => none

/-- What an action makes of a path. -/
def fileWrite (p : String) : LogAction → Option (Option AddAction)
  | .add a => if a.addPath = p then some (some a) else none
  | .remove r _ => if r.removePath = p then some none else none
  | _ => none

attribute [grind =] fileWrite

/-- The version that an action gives an application. -/
def versionOf (k : String) : LogAction → Option Nat
  | .txn t => if t.txnAppId = k then some t.txnVersion else none
  | _ => none

def replay (s : TableSnapshot) (acts : List LogAction) : TableSnapshot := (acts.map LogAction.delta).foldl applyAction s

section
variable {s : TableSnapshot} {acts : List LogAction} {x : LogAction} {p k : String}

theorem replay_cons : replay s (x :: acts) = replay (applyAction s x.delta) acts := rfl

/-- A part of the snapshot that an action replaces or leaves. -/
theorem replay_part {β : Type} {w : LogAction → Option β} (part : TableSnapshot → β)
    (hstep : ∀ s x, part (applyAction s x.delta) = (w x).getD (part s)) : part (replay s acts) = final w (part s) acts := by
  rw [← foldl_final]
  induction acts generalizing s with
  | nil => rfl
  | cons x acts ih => rw [replay_cons, ih, hstep, List.foldl_cons]

theorem replay_protocol : (replay s acts).tsProtocol = final protocolWrite s.tsProtocol acts :=
  replay_part TableSnapshot.tsProtocol fun s x => by cases x <;> rfl

theorem replay_metaData : (replay s acts).tsMetaData = final metaDataWrite s.tsMetaData acts :=
  replay_part TableSnapshot.tsMetaData fun s x => by cases x <;> rfl

theorem replay_commitInfo : (replay s acts).tsLastCommit = final commitInfoWrite s.tsLastCommit acts :=
  replay_part TableSnapshot.tsLastCommit fun s x => by cases x <;> rfl

theorem replay_file : AssocMap.lookup p (replay s acts).tsFiles = final (fileWrite p) (AssocMap.lookup p s.tsFiles) acts := by
  refine replay_part (fun s => AssocMap.lookup p s.tsFiles) fun s x => ?_
  cases x with
  | add a =>
    simp only [LogAction.delta, applyAction, fileWrite, AssocMap.lookup_insert, eq_comm (a := p)]
    split_ifs <;> rfl
  | remove r dv =>
    simp only [LogAction.delta, applyAction, fileWrite, AssocMap.lookup_erase, eq_comm (a := p)]
    split_ifs <;> rfl
  | _ => rfl

/-- The higher of two versions. -/
def raise (m : Option Nat) (n : Nat) : Option Nat := some (m.elim n (max n))

theorem replay_version : AssocMap.lookup k (replay s acts).tsAppIds =
    (acts.filterMap (versionOf k)).foldl raise (AssocMap.lookup k s.tsAppIds) := by
  induction acts generalizing s with
  | nil => rfl
  | cons x acts ih =>
    rw [replay_cons, ih]
    cases x with
    | txn t =>
      have hlookup := AssocMap.lookup_insertWith max t.txnAppId k t.txnVersion s.tsAppIds
      simp only [LogAction.delta, applyAction, hlookup, List.filterMap_cons, versionOf, eq_comm (a := k)]
      split_ifs with h
      · rw [h]
        rfl
      · rfl
    | _ => rfl

theorem replay_ascending (hfiles : s.tsFiles.Ascending) (happs : s.tsAppIds.Ascending) :
    (replay s acts).tsFiles.Ascending ∧ (replay s acts).tsAppIds.Ascending := by
  induction acts generalizing s with
  | nil => exact ⟨hfiles, happs⟩
  | cons x acts ih =>
    rw [replay_cons]
    cases x with
    | add a => exact ih (hfiles.insert a.addPath a) happs
    | remove r dv => exact ih (AssocMap.Ascending.filter hfiles _) happs
    | txn t => exact ih hfiles (happs.insertWith max t.txnAppId t.txnVersion)
    | _ => exact ih hfiles happs

theorem foldl_raise_some (m : Nat) (ns : List Nat) : ns.foldl raise (some m) = some (ns.foldl max m) := by
  induction ns generalizing m with
  | nil => rfl
  | cons n ns ih =>
    rw [List.foldl_cons, List.foldl_cons, max_comm m n]
    exact ih _

theorem foldl_raise (ns : List Nat) : ns.foldl raise none = ns.max? := by
  cases ns with
  | nil => rfl
  | cons n ns => exact foldl_raise_some n ns

end

/-! ## Snapshots of a history -/

def snapshotOf (H : History) : TableSnapshot := replay emptySnapshot H.flatten

/-- The versions that the history gives an application. -/
def versions (k : String) (acts : List LogAction) : List Nat := acts.filterMap (versionOf k)

section
variable {H H' : History} {s s' : TableSnapshot} {p k : String} {f : FileId} {a : AddAction} {rows : List LogAction}
  {v : Nat}

theorem snapshotOf_version : AssocMap.lookup k (snapshotOf H).tsAppIds = (versions k H.flatten).max? := by
  rw [snapshotOf, replay_version]
  exact foldl_raise _

theorem snapshotOf_protocol : (snapshotOf H).tsProtocol = final protocolWrite none H.flatten := replay_protocol

theorem snapshotOf_metaData : (snapshotOf H).tsMetaData = final metaDataWrite none H.flatten := replay_metaData

theorem snapshotOf_commitInfo : (snapshotOf H).tsLastCommit = final commitInfoWrite none H.flatten := replay_commitInfo

theorem snapshotOf_file : AssocMap.lookup p (snapshotOf H).tsFiles = final (fileWrite p) none H.flatten := replay_file

theorem replay_empty_ascending (acts : List LogAction) :
    (replay emptySnapshot acts).tsFiles.Ascending ∧ (replay emptySnapshot acts).tsAppIds.Ascending :=
  replay_ascending List.Pairwise.nil List.Pairwise.nil

/-- Replays with the same parts are the same. -/
theorem replay_ext {acts acts' : List LogAction}
    (hprotocol : final protocolWrite none acts = final protocolWrite none acts')
    (hmeta : final metaDataWrite none acts = final metaDataWrite none acts')
    (hcommit : final commitInfoWrite none acts = final commitInfoWrite none acts')
    (hfile : ∀ p, final (fileWrite p) none acts = final (fileWrite p) none acts')
    (happ : ∀ k, (versions k acts).max? = (versions k acts').max?) : replay emptySnapshot acts = replay emptySnapshot acts' := by
  have hp := @replay_protocol emptySnapshot acts
  have hp' := @replay_protocol emptySnapshot acts'
  have hm := @replay_metaData emptySnapshot acts
  have hm' := @replay_metaData emptySnapshot acts'
  have hc := @replay_commitInfo emptySnapshot acts
  have hc' := @replay_commitInfo emptySnapshot acts'
  have hfiles : (replay emptySnapshot acts).tsFiles = (replay emptySnapshot acts').tsFiles := by
    refine (replay_empty_ascending acts).1.ext (replay_empty_ascending acts').1 fun p => ?_
    rw [replay_file, replay_file]
    exact hfile p
  have happs : (replay emptySnapshot acts).tsAppIds = (replay emptySnapshot acts').tsAppIds := by
    refine (replay_empty_ascending acts).2.ext (replay_empty_ascending acts').2 fun k => ?_
    rw [replay_version, replay_version]
    exact (foldl_raise _).trans ((happ k).trans (foldl_raise _).symm)
  generalize replay emptySnapshot acts = s at *
  generalize replay emptySnapshot acts' = s' at *
  obtain ⟨protocol, metaData, files, appIds, lastCommit⟩ := s
  obtain ⟨protocol', metaData', files', appIds', lastCommit'⟩ := s'
  simp only at hp hp' hm hm' hc hc' hfiles happs
  rw [hp, hp', hm, hm', hc, hc', hfiles, happs]
  simp only [emptySnapshot, hprotocol, hmeta, hcommit]

/-! ## The order of the lines -/

/-- **When the order of the lines does not count.**  The last commit with a
    protocol, a metadata, a commit info has one; the last commit that names a path
    removes it, or adds one entry of it; and no file is live but that one. -/
structure Settles (H : History) : Prop where
  protocol : Settled protocolWrite H
  metaData : Settled metaDataWrite H
  commitInfo : Settled commitInfoWrite H
  file : ∀ p, Settled (fileWrite p) H
  gone : ∀ f, Live H f → ∃ a, some a ∈ lastWrites (fileWrite f.path) H ∧ a.file = f

theorem Shuffled.flatten_perm (h : Shuffled H' H) : H'.flatten.Perm H.flatten := by
  induction h with
  | nil => exact List.Perm.refl _
  | cons hc _ ih => exact hc.append ih

theorem max?_perm {ns ns' : List Nat} (h : ns.Perm ns') : ns.max? = ns'.max? := by
  rw [← foldl_raise, ← foldl_raise]
  refine h.foldl_eq' (fun x _ y _ m => ?_) none
  cases m with
  | none => exact congrArg some (max_comm _ _)
  | some m => exact congrArg some (max_left_comm _ _ _)

theorem order_iff : (∀ H', Shuffled H' H → snapshotOf H' = snapshotOf H) ↔
    Settled protocolWrite H ∧ Settled metaDataWrite H ∧ Settled commitInfoWrite H ∧ ∀ p, Settled (fileWrite p) H := by
  constructor
  · intro h
    refine ⟨?_, ?_, ?_, fun p => ?_⟩
    · refine (@settled_iff _ _ protocolWrite none H).1 fun H' hs => ?_
      rw [← snapshotOf_protocol, ← snapshotOf_protocol, h H' hs]
    · refine (@settled_iff _ _ metaDataWrite none H).1 fun H' hs => ?_
      rw [← snapshotOf_metaData, ← snapshotOf_metaData, h H' hs]
    · refine (@settled_iff _ _ commitInfoWrite none H).1 fun H' hs => ?_
      rw [← snapshotOf_commitInfo, ← snapshotOf_commitInfo, h H' hs]
    · refine (@settled_iff _ _ (fileWrite p) none H).1 fun H' hs => ?_
      rw [← snapshotOf_file, ← snapshotOf_file, h H' hs]
  · rintro ⟨hprotocol, hmeta, hcommit, hfile⟩ H' hs
    exact replay_ext (settled_iff.2 hprotocol H' hs) (settled_iff.2 hmeta H' hs) (settled_iff.2 hcommit H' hs)
      (fun p => settled_iff.2 (hfile p) H' hs) fun k => max?_perm ((Shuffled.flatten_perm hs).filterMap _)

/-! ## The live files -/

theorem fileWrite_add {x : LogAction} : fileWrite p x = some (some a) ↔ x = .add a ∧ a.addPath = p := by
  cases x with
  | add a' =>
    simp only [fileWrite, LogAction.add.injEq]
    constructor
    · intro h
      split_ifs at h with hp
      cases h
      exact ⟨rfl, hp⟩
    · rintro ⟨rfl, hp⟩
      exact if_pos hp
  | remove r dv =>
    simp only [fileWrite]
    split_ifs <;> simp
  | _ => simp [fileWrite]

theorem fileWrite_remove (r : RemoveAction) (dv : Option Value) : fileWrite r.removePath (.remove r dv) = some none := if_pos rfl

/-- The last entry of a path is live. -/
theorem live_of_last (hset : Settled (fileWrite p) H) (h : some a ∈ lastWrites (fileWrite p) H) : Live H a.file := by
  obtain ⟨before, c, after, hH, hlast, hafter⟩ := exists_last (List.ne_nil_of_mem h)
  have hmem := h
  rw [hlast, mem_writes] at hmem
  obtain ⟨x, hx, hw⟩ := hmem
  obtain ⟨rfl, rfl⟩ := fileWrite_add.1 hw
  refine ⟨before, c, after, hH, ⟨a, hx, rfl⟩, ?_⟩
  rintro c' hc' r dv hr hfile
  have hpath : r.removePath = a.addPath := congrArg FileId.path hfile
  have hw' : fileWrite a.addPath (.remove r dv) = some none := hpath ▸ fileWrite_remove r dv
  rcases List.mem_cons.1 hc' with rfl | hc'
  · have hnone : none ∈ lastWrites (fileWrite a.addPath) H := by
      rw [hlast, mem_writes]
      exact ⟨_, hr, hw'⟩
    cases hset _ h _ hnone
  · have hnone : none ∈ writes (fileWrite a.addPath) after.flatten := mem_writes.2 ⟨_, List.mem_flatten_of_mem hc' hr, hw'⟩
    rw [hafter] at hnone
    exact List.not_mem_nil hnone

theorem hasFile_iff (hset : Settled (fileWrite f.path) H) :
    (snapshotOf H).HasFile f ↔ ∃ a, some a ∈ lastWrites (fileWrite f.path) H ∧ a.file = f := by
  unfold TableSnapshot.HasFile
  rw [snapshotOf_file]
  constructor
  · rintro ⟨a, ha, hf⟩
    have hne : lastWrites (fileWrite f.path) H ≠ [] := by
      intro hnil
      rw [final_flatten, hnil] at ha
      cases ha
    exact ⟨a, ha ▸ final_flatten_mem hne, hf⟩
  · rintro ⟨a, ha, hf⟩
    exact ⟨a, hset _ (final_flatten_mem (List.ne_nil_of_mem ha)) _ ha, hf⟩

/-- **The snapshot has the live files**, where no path has two. -/
theorem files_iff (hset : ∀ p, Settled (fileWrite p) H) : (∀ f, (snapshotOf H).HasFile f ↔ Live H f) ↔
    ∀ f, Live H f → ∃ a, some a ∈ lastWrites (fileWrite f.path) H ∧ a.file = f := by
  constructor
  · intro h f hf
    exact (hasFile_iff (hset f.path)).1 ((h f).2 hf)
  · intro h f
    rw [hasFile_iff (hset f.path)]
    refine ⟨?_, h f⟩
    rintro ⟨a, ha, rfl⟩
    exact live_of_last (hset _) ha

end

end Wireform.Delta
