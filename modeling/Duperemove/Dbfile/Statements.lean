-- SUMMARY: The statements that change a hashfile; they keep its constraints and leave no half-stored hashes.
import Duperemove.Dbfile.Tables

/-!
# Statements

One definition for each statement that a scan executes. Foreign keys are on, so
a deleted file takes its blocks and extents along, also when it is deleted
because it is in the way of an `or replace`. A statement that violates a
constraint fails.
-/

namespace Duperemove

/-- The columns that `dbfile_store_file_info` binds. -/
structure FileInfo where
  ino : Nat
  subvol : Nat
  filename : String
  size : Nat
  mtime : Nat
  dedupeSeq : Int
  deriving DecidableEq, Repr

namespace Tables

-- ---------------------------------------------------------------------------
-- Statements
-- ---------------------------------------------------------------------------

/-- `delete from files where p`, with `ON DELETE CASCADE`. -/
def deleteFiles (t : Tables) (p : FileRow → Bool) : Tables where
  files := t.files.filter fun f => !p f
  extents := t.extents.filter fun e => !t.files.any fun f => p f && decide (f.id = e.fileid)
  blocks := t.blocks.filter fun b => !t.files.any fun f => p f && decide (f.id = b.fileid)

/-- `DELETE_UNSCANNED_FILES` -/
def deleteUnscannedFiles (t : Tables) : Tables := t.deleteFiles fun f => f.digest.isNone

/-- The id that SQLite gives to a new row: one more than the largest one. -/
def newRowid (t : Tables) : Nat := (t.files.map FileRow.id).foldr max 0 + 1

/-- `WRITE_FILE`: the id is chosen first, then the rows that are in the way are
    deleted. -/
def writeFile (t : Tables) (f : FileInfo) : Tables :=
  let row : FileRow :=
    ⟨t.newRowid, f.filename, f.ino, f.subvol, f.size, f.mtime, f.dedupeSeq, none, none⟩
  let t := t.deleteFiles fun g =>
    decide (g.ino = f.ino ∧ g.subvol = f.subvol) || decide (g.filename = f.filename)
  { t with files := t.files ++ [row] }

/-- `RENAME_FILE` -/
def renameFile (t : Tables) (path : String) (id : Nat) : Tables :=
  if t.files.any fun g => decide (g.id = id) then
    let t := t.deleteFiles fun g => decide (g.filename = path) && decide (g.id ≠ id)
    { t with files := t.files.map fun g => if g.id = id then { g with filename := path } else g }
  else t

/-- `REMOVE_BLOCK_HASHES` -/
def removeBlockHashes (t : Tables) (fileid : Nat) : Tables :=
  { t with blocks := t.blocks.filter fun b => decide (b.fileid ≠ fileid) }

/-- `REMOVE_EXTENT_HASHES` -/
def removeExtentHashes (t : Tables) (fileid : Nat) : Tables :=
  { t with extents := t.extents.filter fun e => decide (e.fileid ≠ fileid) }

/-- `INSERT_BLOCK` -/
def insertBlock (t : Tables) (b : BlockRow) : Option Tables :=
  if (∃ f ∈ t.files, f.id = b.fileid) ∧
      ¬ ∃ b' ∈ t.blocks, (b'.fileid, b'.loff) = (b.fileid, b.loff)
  then some { t with blocks := t.blocks ++ [b] } else none

/-- `INSERT_EXTENTS` -/
def insertExtent (t : Tables) (e : ExtentRow) : Option Tables :=
  if (∃ f ∈ t.files, f.id = e.fileid) ∧
      ¬ ∃ e' ∈ t.extents, (e'.fileid, e'.loff, e'.len) = (e.fileid, e.loff, e.len)
  then some { t with extents := t.extents ++ [e] } else none

/-- `UPDATE_SCANNED_FILE` -/
def updateScannedFile (t : Tables) (digest : DigestBytes) (flags id : Nat) : Tables :=
  { t with files := t.files.map fun f =>
    if f.id = id then { f with digest := some digest, flags := some flags } else f }

/-- A file without a digest has no blocks and no extents. -/
structure NoHalfStored (t : Tables) : Prop where
  extents : ∀ f ∈ t.files, f.digest = none → ∀ e ∈ t.extents, e.fileid ≠ f.id
  blocks : ∀ f ∈ t.files, f.digest = none → ∀ b ∈ t.blocks, b.fileid ≠ f.id

-- ---------------------------------------------------------------------------
-- Changing files in place
-- ---------------------------------------------------------------------------

section Update

variable {t : Tables}

/-- A key that a change leaves alone is the same in all rows. -/
theorem map_key_map {κ : Type} {key : FileRow → κ} {g : FileRow → FileRow}
    (hkey : ∀ f, key (g f) = key f) (rows : List FileRow) :
    (rows.map g).map key = rows.map key := by
  rw [List.map_map]
  exact List.map_congr_left fun f _ => hkey f

/-- Changing rows in place keeps the constraints when it keeps the ids and the inodes,
    and the new names are distinct. -/
theorem Constraints.mapFiles (h : t.Constraints) {g : FileRow → FileRow}
    (hid : ∀ f, (g f).id = f.id) (hino : ∀ f, ((g f).ino, (g f).subvol) = (f.ino, f.subvol))
    (hname : ((t.files.map g).map FileRow.filename).Nodup) :
    ({ t with files := t.files.map g } : Tables).Constraints := by
  have hids : ∀ fileid, (∃ f ∈ t.files, f.id = fileid) → ∃ f ∈ t.files.map g, f.id = fileid := by
    rintro fileid ⟨f, hf, hf'⟩
    exact ⟨g f, List.mem_map_of_mem hf, (hid f).trans hf'⟩
  refine ⟨?_, ?_, hname, h.extent_unique, h.block_unique, ?_, ?_⟩
  · rw [map_key_map hid]
    exact h.id_unique
  · rw [map_key_map hino]
    exact h.ino_unique
  · exact fun e he => hids _ (h.extent_fileid e he)
  · exact fun b hb => hids _ (h.block_fileid b hb)

end Update

-- ---------------------------------------------------------------------------
-- Deleting files
-- ---------------------------------------------------------------------------

section Delete

variable {t : Tables}

theorem mem_deleteFiles_files {p : FileRow → Bool} {f : FileRow} :
    f ∈ (t.deleteFiles p).files ↔ f ∈ t.files ∧ p f = false := by
  simp [deleteFiles]

theorem mem_deleteFiles_extents {p : FileRow → Bool} {e : ExtentRow} :
    e ∈ (t.deleteFiles p).extents ↔
      e ∈ t.extents ∧ ∀ f ∈ t.files, p f = true → f.id ≠ e.fileid := by
  simp [deleteFiles]

theorem mem_deleteFiles_blocks {p : FileRow → Bool} {b : BlockRow} :
    b ∈ (t.deleteFiles p).blocks ↔
      b ∈ t.blocks ∧ ∀ f ∈ t.files, p f = true → f.id ≠ b.fileid := by
  simp [deleteFiles]

theorem Constraints.deleteFiles (h : t.Constraints) (p : FileRow → Bool) :
    (t.deleteFiles p).Constraints where
  id_unique := h.id_unique.sublist (List.filter_sublist.map _)
  ino_unique := h.ino_unique.sublist (List.filter_sublist.map _)
  filename_unique := h.filename_unique.sublist (List.filter_sublist.map _)
  extent_unique := h.extent_unique.sublist (List.filter_sublist.map _)
  block_unique := h.block_unique.sublist (List.filter_sublist.map _)
  extent_fileid := by
    intro e he
    obtain ⟨he, hkept⟩ := mem_deleteFiles_extents.1 he
    obtain ⟨f, hf, hid⟩ := h.extent_fileid e he
    refine ⟨f, mem_deleteFiles_files.2 ⟨hf, ?_⟩, hid⟩
    exact Bool.eq_false_iff.2 fun hp => hkept f hf hp hid
  block_fileid := by
    intro b hb
    obtain ⟨hb, hkept⟩ := mem_deleteFiles_blocks.1 hb
    obtain ⟨f, hf, hid⟩ := h.block_fileid b hb
    refine ⟨f, mem_deleteFiles_files.2 ⟨hf, ?_⟩, hid⟩
    exact Bool.eq_false_iff.2 fun hp => hkept f hf hp hid

/-- After the files without a digest are deleted, every file has one. -/
theorem digest_of_mem_deleteUnscannedFiles {f : FileRow} (hf : f ∈ t.deleteUnscannedFiles.files) :
    f.digest.isSome = true := by
  have hp := (mem_deleteFiles_files.1 hf).2
  cases hd : f.digest with
  | none => simp [hd] at hp
  | some d => rfl

end Delete

-- ---------------------------------------------------------------------------
-- Storing a file
-- ---------------------------------------------------------------------------

section Write

variable {t : Tables}

theorem lt_newRowid {f : FileRow} (hf : f ∈ t.files) : f.id < t.newRowid := by
  have hle : ∀ ids : List Nat, ∀ id ∈ ids, id ≤ ids.foldr max 0 := by
    intro ids
    induction ids with
    | nil => simp
    | cons x ids ih =>
      intro id hid
      rcases List.mem_cons.1 hid with rfl | hid
      · exact Nat.le_max_left _ _
      · exact Nat.le_trans (ih id hid) (Nat.le_max_right _ _)
  exact Nat.lt_succ_of_le (hle _ _ (List.mem_map_of_mem hf))

/-- A row added to a column with unique values keeps them unique when its value
    is new. -/
theorem nodup_map_append_singleton {ρ κ : Type} {key : ρ → κ} {rows : List ρ} {r : ρ}
    (h : (rows.map key).Nodup) (hnew : ∀ r' ∈ rows, key r' ≠ key r) :
    ((rows ++ [r]).map key).Nodup := by
  rw [List.map_append, List.map_singleton]
  refine List.nodup_append.2 ⟨h, by simp, ?_⟩
  intro k hk k' hk'
  obtain ⟨r', hr', rfl⟩ := List.mem_map.1 hk
  rw [List.mem_singleton.1 hk']
  exact hnew r' hr'

theorem mem_writeFile_files {info : FileInfo} {f : FileRow} :
    f ∈ (t.writeFile info).files ↔
      (f ∈ t.files ∧ ¬ (f.ino = info.ino ∧ f.subvol = info.subvol) ∧ f.filename ≠ info.filename) ∨
      f = ⟨t.newRowid, info.filename, info.ino, info.subvol, info.size, info.mtime, info.dedupeSeq,
        none, none⟩ := by
  simp only [writeFile, List.mem_append, mem_deleteFiles_files, List.mem_singleton,
    Bool.or_eq_false_iff, decide_eq_false_iff_not]

theorem Constraints.writeFile (h : t.Constraints) (info : FileInfo) :
    (t.writeFile info).Constraints := by
  have hdel := h.deleteFiles fun g =>
    decide (g.ino = info.ino ∧ g.subvol = info.subvol) || decide (g.filename = info.filename)
  have hold : ∀ f ∈ (t.deleteFiles fun g => decide (g.ino = info.ino ∧ g.subvol = info.subvol) ||
      decide (g.filename = info.filename)).files,
      f.id < t.newRowid ∧ ¬ (f.ino = info.ino ∧ f.subvol = info.subvol) ∧
        f.filename ≠ info.filename := by
    intro f hf
    obtain ⟨hf, hp⟩ := mem_deleteFiles_files.1 hf
    simp only [Bool.or_eq_false_iff, decide_eq_false_iff_not] at hp
    exact ⟨lt_newRowid hf, hp⟩
  refine ⟨?_, ?_, ?_, hdel.extent_unique, hdel.block_unique, ?_, ?_⟩
  · exact nodup_map_append_singleton hdel.id_unique fun f hf => Nat.ne_of_lt (hold f hf).1
  · refine nodup_map_append_singleton hdel.ino_unique fun f hf heq => (hold f hf).2.1 ?_
    simpa using heq
  · exact nodup_map_append_singleton hdel.filename_unique fun f hf => (hold f hf).2.2
  · intro e he
    obtain ⟨f, hf, hid⟩ := hdel.extent_fileid e he
    exact ⟨f, List.mem_append_left _ hf, hid⟩
  · intro b hb
    obtain ⟨f, hf, hid⟩ := hdel.block_fileid b hb
    exact ⟨f, List.mem_append_left _ hf, hid⟩

/-- A new row has a new id, to which no hashes refer. -/
theorem NoHalfStored.writeFile (h : t.NoHalfStored) (hc : t.Constraints) (info : FileInfo) :
    (t.writeFile info).NoHalfStored where
  extents := by
    intro f hf hnull e he
    have he : e ∈ t.extents := (mem_deleteFiles_extents.1 he).1
    rcases mem_writeFile_files.1 hf with ⟨hf, -⟩ | rfl
    · exact h.extents f hf hnull e he
    · obtain ⟨g, hg, hid⟩ := hc.extent_fileid e he
      exact hid ▸ Nat.ne_of_lt (lt_newRowid hg)
  blocks := by
    intro f hf hnull b hb
    have hb : b ∈ t.blocks := (mem_deleteFiles_blocks.1 hb).1
    rcases mem_writeFile_files.1 hf with ⟨hf, -⟩ | rfl
    · exact h.blocks f hf hnull b hb
    · obtain ⟨g, hg, hid⟩ := hc.block_fileid b hb
      exact hid ▸ Nat.ne_of_lt (lt_newRowid hg)

end Write

-- ---------------------------------------------------------------------------
-- Renaming a file and removing hashes
-- ---------------------------------------------------------------------------

section Rename

variable {t : Tables}

/-- A renamed file keeps everything but its name. -/
theorem exists_of_mem_renameFile {path : String} {id : Nat} {f : FileRow}
    (hf : f ∈ (t.renameFile path id).files) :
    ∃ g ∈ t.files, f = g ∨ (g.id = id ∧ f = { g with filename := path }) := by
  unfold renameFile at hf
  split at hf
  · obtain ⟨g, hg, rfl⟩ := List.mem_map.1 hf
    refine ⟨g, (mem_deleteFiles_files.1 hg).1, ?_⟩
    split
    · rename_i hid
      exact .inr ⟨hid, rfl⟩
    · exact .inl rfl
  · exact ⟨f, hf, .inl rfl⟩

theorem extents_renameFile (path : String) (id : Nat) :
    (t.renameFile path id).extents ⊆ t.extents := by
  unfold renameFile
  split
  · exact fun e he => (mem_deleteFiles_extents.1 he).1
  · exact fun e he => he

theorem blocks_renameFile (path : String) (id : Nat) :
    (t.renameFile path id).blocks ⊆ t.blocks := by
  unfold renameFile
  split
  · exact fun b hb => (mem_deleteFiles_blocks.1 hb).1
  · exact fun b hb => hb

theorem Constraints.renameFile (h : t.Constraints) (path : String) (id : Nat) :
    (t.renameFile path id).Constraints := by
  unfold Tables.renameFile
  split
  swap
  · exact h
  have hdel := h.deleteFiles fun g => decide (g.filename = path) && decide (g.id ≠ id)
  have hsame : ∀ f ∈ (t.deleteFiles fun g =>
      decide (g.filename = path) && decide (g.id ≠ id)).files, f.filename = path → f.id = id := by
    intro f hf hname
    by_contra hne
    have hp := (mem_deleteFiles_files.1 hf).2
    simp [hname, hne] at hp
  refine hdel.mapFiles (fun f => by split <;> rfl) (fun f => by split <;> rfl) ?_
  -- Only the renamed row has the new name, and it is one row.
  rw [List.map_map]
  refine List.pairwise_map.2 ?_
  have hids := List.pairwise_map.1 hdel.id_unique
  have hnames := List.pairwise_map.1 hdel.filename_unique
  refine (hids.and hnames).imp_of_mem fun {f g} hf hg hne => ?_
  simp only [Function.comp_apply]
  by_cases hf' : f.id = id
  · rw [if_pos hf']
    have hg' : g.id ≠ id := fun hg' => hne.1 (hf'.trans hg'.symm)
    rw [if_neg hg']
    exact fun heq => hg' (hsame g hg heq.symm)
  · rw [if_neg hf']
    by_cases hg' : g.id = id
    · rw [if_pos hg']
      exact fun heq => hf' (hsame f hf heq)
    · rw [if_neg hg']
      exact hne.2

theorem NoHalfStored.renameFile (h : t.NoHalfStored) (path : String) (id : Nat) :
    (t.renameFile path id).NoHalfStored where
  extents := by
    intro f hf hnull e he
    obtain ⟨g, hg, rfl | ⟨-, rfl⟩⟩ := exists_of_mem_renameFile hf
    · exact h.extents f hg hnull e (extents_renameFile path id he)
    · exact h.extents g hg hnull e (extents_renameFile path id he)
  blocks := by
    intro f hf hnull b hb
    obtain ⟨g, hg, rfl | ⟨-, rfl⟩⟩ := exists_of_mem_renameFile hf
    · exact h.blocks f hg hnull b (blocks_renameFile path id hb)
    · exact h.blocks g hg hnull b (blocks_renameFile path id hb)

theorem Constraints.removeBlockHashes (h : t.Constraints) (fileid : Nat) :
    (t.removeBlockHashes fileid).Constraints :=
  ⟨h.id_unique, h.ino_unique, h.filename_unique, h.extent_unique,
    h.block_unique.sublist (List.filter_sublist.map _), h.extent_fileid,
    fun b hb => h.block_fileid b (List.mem_of_mem_filter hb)⟩

theorem Constraints.removeExtentHashes (h : t.Constraints) (fileid : Nat) :
    (t.removeExtentHashes fileid).Constraints :=
  ⟨h.id_unique, h.ino_unique, h.filename_unique,
    h.extent_unique.sublist (List.filter_sublist.map _), h.block_unique,
    fun e he => h.extent_fileid e (List.mem_of_mem_filter he), h.block_fileid⟩

theorem NoHalfStored.removeBlockHashes (h : t.NoHalfStored) (fileid : Nat) :
    (t.removeBlockHashes fileid).NoHalfStored :=
  ⟨h.extents, fun f hf hnull b hb => h.blocks f hf hnull b (List.mem_of_mem_filter hb)⟩

theorem NoHalfStored.removeExtentHashes (h : t.NoHalfStored) (fileid : Nat) :
    (t.removeExtentHashes fileid).NoHalfStored :=
  ⟨fun f hf hnull e he => h.extents f hf hnull e (List.mem_of_mem_filter he), h.blocks⟩

end Rename

-- ---------------------------------------------------------------------------
-- Storing hashes
-- ---------------------------------------------------------------------------

section Hashes

variable {t t' : Tables}

theorem insertBlock_eq_some {b : BlockRow} (h : t.insertBlock b = some t') :
    t' = { t with blocks := t.blocks ++ [b] } ∧ (∃ f ∈ t.files, f.id = b.fileid) ∧
      ∀ b' ∈ t.blocks, (b'.fileid, b'.loff) ≠ (b.fileid, b.loff) := by
  unfold insertBlock at h
  split at h
  · rename_i hcond
    exact ⟨(Option.some.inj h).symm, hcond.1, fun b' hb' heq => hcond.2 ⟨b', hb', heq⟩⟩
  · cases h

theorem insertExtent_eq_some {e : ExtentRow} (h : t.insertExtent e = some t') :
    t' = { t with extents := t.extents ++ [e] } ∧ (∃ f ∈ t.files, f.id = e.fileid) ∧
      ∀ e' ∈ t.extents, (e'.fileid, e'.loff, e'.len) ≠ (e.fileid, e.loff, e.len) := by
  unfold insertExtent at h
  split at h
  · rename_i hcond
    exact ⟨(Option.some.inj h).symm, hcond.1, fun e' he' heq => hcond.2 ⟨e', he', heq⟩⟩
  · cases h

theorem Constraints.insertBlock (h : t.Constraints) {b : BlockRow}
    (hins : t.insertBlock b = some t') : t'.Constraints := by
  obtain ⟨rfl, hfile, hnew⟩ := insertBlock_eq_some hins
  refine ⟨h.id_unique, h.ino_unique, h.filename_unique, h.extent_unique,
    nodup_map_append_singleton h.block_unique hnew, h.extent_fileid, ?_⟩
  intro b' hb'
  rcases List.mem_append.1 hb' with hb' | hb'
  · exact h.block_fileid b' hb'
  · rw [List.mem_singleton.1 hb']
    exact hfile

theorem Constraints.insertExtent (h : t.Constraints) {e : ExtentRow}
    (hins : t.insertExtent e = some t') : t'.Constraints := by
  obtain ⟨rfl, hfile, hnew⟩ := insertExtent_eq_some hins
  refine ⟨h.id_unique, h.ino_unique, h.filename_unique,
    nodup_map_append_singleton h.extent_unique hnew, h.block_unique, ?_, h.block_fileid⟩
  intro e' he'
  rcases List.mem_append.1 he' with he' | he'
  · exact h.extent_fileid e' he'
  · rw [List.mem_singleton.1 he']
    exact hfile

/-- A scanned file keeps everything but its digest and its flags. -/
theorem exists_of_mem_updateScannedFile {digest : DigestBytes} {flags id : Nat} {f : FileRow}
    (hf : f ∈ (t.updateScannedFile digest flags id).files) :
    ∃ g ∈ t.files, (g.id ≠ id ∧ f = g) ∨
      (g.id = id ∧ f = { g with digest := some digest, flags := some flags }) := by
  obtain ⟨g, hg, rfl⟩ := List.mem_map.1 hf
  refine ⟨g, hg, ?_⟩
  split
  · rename_i hid
    exact .inr ⟨hid, rfl⟩
  · rename_i hid
    exact .inl ⟨hid, rfl⟩

theorem Constraints.updateScannedFile (h : t.Constraints) (digest : DigestBytes) (flags id : Nat) :
    (t.updateScannedFile digest flags id).Constraints := by
  refine h.mapFiles (fun f => by split <;> rfl) (fun f => by split <;> rfl) ?_
  rw [map_key_map fun f => by split <;> rfl]
  exact h.filename_unique

end Hashes

end Tables

end Duperemove
