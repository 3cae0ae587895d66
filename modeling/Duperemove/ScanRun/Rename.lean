-- SUMMARY: A visit of a renamed file: its row is replaced and its hashes are deleted, whatever the rename did.
import Mathlib.Data.List.Nodup
import Duperemove.ScanRun.Model

/-!
# Renamed files

`__scan_file` renames the row of a file that was moved, so that its hashes stay valid.
But the code goes on behind the rename as it does for a changed file: the fields that
guard the removal of the hashes hold what `statx` said by then, and the upsert replaces
the row that was just renamed.
-/

namespace Duperemove

-- ---------------------------------------------------------------------------
-- A visit
-- ---------------------------------------------------------------------------

/-- `__scan_file`, when all calls succeed. -/
def ScanSys.visit (cfg : ScanConfig) (s : ScanSys) (v : ListedFile) : ScanSys :=
  let s := describeFile cfg s v true
  match scanStep cfg s (.store (fun _ => .done) true) with
  | none => s
  | some s' => s'

/-- Nothing but the name of the row `f` changed, a row that had the new name is gone, and
    the file is not scheduled. -/
structure RenameKept (s s' : ScanSys) (f : FileRow) (path : String) : Prop where
  row : { f with filename := path } ∈ s'.tables.files
  others : ∀ g ∈ s.tables.files, g.id ≠ f.id → g.filename ≠ path → g ∈ s'.tables.files
  extents : ∀ e ∈ s.tables.extents, e.fileid = f.id → e ∈ s'.tables.extents
  blocks : ∀ b ∈ s.tables.blocks, b.fileid = f.id → b ∈ s'.tables.blocks
  queue : s'.queue = s.queue

/-- The row of a visited file is up to date except for its name, and its old path is
    gone. -/
structure MovedFile (t : Tables) (v : ListedFile) (f : FileRow) : Prop where
  stored : f ∈ t.files
  inode : f.ino = v.ino ∧ f.subvol = v.subvol
  scanned : f.digest.isSome = true
  upToDate : f.mtime = v.mtime ∧ f.size = v.size
  moved : f.filename ≠ v.path
  gone : v.gone f.filename = true

section Visit

variable {cfg : ScanConfig} {s : ScanSys} {t : Tables} {v : ListedFile} {f : FileRow}

/-- The lookup finds the row of the inode. -/
theorem dbfileDescribeFile_of_mem (hc : t.Constraints) (hf : f ∈ t.files)
    (hinode : f.ino = v.ino ∧ f.subvol = v.subvol) :
    dbfileDescribeFile t v.ino v.subvol = ⟨f.id, f.mtime, f.size, f.filename⟩ := by
  unfold dbfileDescribeFile
  cases hfind : t.files.find? fun f => decide (f.ino = v.ino ∧ f.subvol = v.subvol) with
  | none => exact absurd (List.find?_eq_none.1 hfind f hf) (by simp [hinode])
  | some g =>
    have hg : g.ino = v.ino ∧ g.subvol = v.subvol := by simpa using List.find?_some hfind
    have heq : g = f := List.inj_on_of_nodup_map hc.ino_unique (List.mem_of_find?_eq_some hfind) hf
      (by rw [hg.1, hg.2, hinode.1, hinode.2])
    rw [heq]

/-- What the transaction leaves for a renamed file when all its statements succeed. -/
theorem scanFileStore_renamed (v : ListedFile) (id seq : Nat) {c : Transaction.Conn Tables}
    (hview : c.view = none) :
    ∃ u, u = ((c.durable.renameFile v.path id).removeBlockHashes id).removeExtentHashes id ∧
      scanFileStore (fun _ => .done) v id true seq c =
        (.stored u.newRowid, ⟨u.writeFile (v.info seq), none, c.calls + 6⟩) := by
  obtain ⟨durable, view, calls⟩ := c
  cases hview
  have hsize : v.mtime ≠ 0 ∨ v.size ≠ 0 := .inr (Nat.ne_of_gt v.size_pos)
  refine ⟨_, rfl, ?_⟩
  simp only [scanFileStore, renameIfMoved, if_pos, Transaction.begin, Transaction.call,
    Transaction.exec, Transaction.Conn.sees, Transaction.Conn.write, Transaction.Conn.count,
    removeOldHashes, if_pos hsize, storeFileInfo, Transaction.commit, Option.getD_some]

/-- The lookup of a visit outside of a transaction finds the row of the moved file. -/
theorem MovedFile.described (hm : MovedFile s.tables v f) (hc : s.tables.Constraints)
    (hview : s.conn.view = none) :
    dbfileDescribeFile s.conn.sees v.ino v.subvol = ⟨f.id, f.mtime, f.size, f.filename⟩ := by
  have hsees : s.conn.sees = s.tables := by
    rw [Transaction.Conn.sees, hview]
    rfl
  rw [hsees]
  exact dbfileDescribeFile_of_mem hc hm.stored hm.inode

/-- The visit of a renamed file stores it like a changed one. -/
theorem visit_moved (hm : MovedFile s.tables v f) (hc : s.tables.Constraints)
    (hview : s.conn.view = none) (hname : f.filename ≠ "") :
    ∃ u seq, u = ((s.tables.renameFile v.path f.id).removeBlockHashes f.id).removeExtentHashes f.id ∧
      (s.visit cfg v).tables = u.writeFile (v.info seq) ∧
      (s.visit cfg v).queue = s.queue ++ [⟨v.path, u.newRowid, v.size⟩] := by
  have hd := hm.described hc hview
  have hrenamed : isFileRenamed v f.filename = true := by
    rw [isFileRenamed, if_neg (not_or.2 ⟨hname, hm.moved⟩)]
    exact hm.gone
  rcases describeFile_cases cfg s v true with ⟨-, hskip⟩ | ⟨heq, -⟩
  · rw [hd] at hskip
    simp [isUpToDate, hrenamed] at hskip
  · rw [hd] at heq
    simp only [hrenamed] at heq
    obtain ⟨u, hu, hstore⟩ := scanFileStore_renamed v f.id
      ((s.batch.enter cfg.dedupeSeq).next cfg.batchSize).seq hview
    refine ⟨u, ((s.batch.enter cfg.dedupeSeq).next cfg.batchSize).seq, hu, ?_, ?_⟩
    · rw [ScanSys.visit, heq]
      simp only [scanStep, hstore, if_pos, ScanSys.tables]
    · rw [ScanSys.visit, heq]
      simp only [scanStep, hstore, if_pos]

/-- A file whose row has no name counts as up to date. -/
theorem visit_unnamed (hm : MovedFile s.tables v f) (hc : s.tables.Constraints)
    (hidle : s.lister = .idle) (hview : s.conn.view = none) (hname : f.filename = "") :
    (s.visit cfg v).tables = s.tables := by
  have hd := hm.described hc hview
  have hrenamed : isFileRenamed v f.filename = false := by
    rw [isFileRenamed, if_pos (.inl hname)]
  rcases describeFile_cases cfg s v true with ⟨heq, -⟩ | ⟨-, hskip⟩
  · rw [ScanSys.visit, heq]
    simp only [scanStep, hidle, ScanSys.tables]
  · rw [hd] at hskip
    simp [isUpToDate, hrenamed, hm.upToDate] at hskip

/-- After the visit no row has the inode of the file and a digest. -/
theorem digest_of_mem_visit (hm : MovedFile s.tables v f) (hc : s.tables.Constraints)
    (hview : s.conn.view = none) (hname : f.filename ≠ "") {g : FileRow}
    (hg : g ∈ (s.visit cfg v).tables.files) (hinode : g.ino = v.ino ∧ g.subvol = v.subvol) :
    g.digest = none := by
  obtain ⟨u, seq, -, htables, -⟩ := @visit_moved cfg _ _ _ hm hc hview hname
  rw [htables] at hg
  rcases Tables.mem_writeFile_files.1 hg with ⟨-, hother, -⟩ | rfl
  · exact absurd hinode hother
  · rfl

/-- The hashes of the file are gone. -/
theorem hashes_of_mem_visit (hm : MovedFile s.tables v f) (hc : s.tables.Constraints)
    (hview : s.conn.view = none) (hname : f.filename ≠ "") :
    (∀ e ∈ (s.visit cfg v).tables.extents, e.fileid ≠ f.id) ∧
      ∀ b ∈ (s.visit cfg v).tables.blocks, b.fileid ≠ f.id := by
  obtain ⟨u, seq, hu, htables, -⟩ := @visit_moved cfg _ _ _ hm hc hview hname
  rw [htables]
  constructor
  · intro e he
    have he : e ∈ u.extents := (Tables.mem_deleteFiles_extents.1 he).1
    rw [hu] at he
    exact of_decide_eq_true (List.mem_filter.1 he).2
  · intro b hb
    have hb : b ∈ u.blocks := (Tables.mem_deleteFiles_blocks.1 hb).1
    rw [hu] at hb
    exact of_decide_eq_true (List.mem_filter.1 hb).2

/-- No visit of a file that was moved and is up to date otherwise is a rename alone. -/
theorem not_renameKept (cfg : ScanConfig) (hidle : s.lister = .idle) (hview : s.conn.view = none)
    (hc : s.tables.Constraints) (hm : MovedFile s.tables v f) :
    ¬ RenameKept s (s.visit cfg v) f v.path := by
  intro hkept
  by_cases hname : f.filename = ""
  · have hrow := hkept.row
    rw [visit_unnamed hm hc hidle hview hname] at hrow
    have heq : { f with filename := v.path } = f :=
      List.inj_on_of_nodup_map hc.id_unique hrow hm.stored rfl
    exact hm.moved (congrArg FileRow.filename heq).symm
  · have hnone := digest_of_mem_visit hm hc hview hname hkept.row hm.inode
    have hsome := hm.scanned
    rw [hnone] at hsome
    cases hsome

end Visit

theorem movedSize_pos : 0 < 8192 := Nat.succ_pos 8191

/-- A visit of `/new`, which was `/old` when it was scanned. -/
def movedVisit : ListedFile where
  path := "/new"
  ino := 10
  subvol := 0
  size := 8192
  mtime := 1
  gone := fun path => path == "/old"
  size_pos := movedSize_pos

/-- The row of `/old`. -/
def movedRow : FileRow := ⟨1, "/old", 10, 0, 8192, 1, 1, some zeroDigest, some 0⟩

def movedTables : Tables := ⟨[movedRow], [⟨zeroDigest, 1, 0, 65536, 8192⟩], []⟩

theorem movedSeq_lt : 0 < 2 ^ 32 := by decide

def movedConfig : ScanConfig := ⟨0, 0, movedSeq_lt, movedSeq_lt⟩

theorem movedTables_constraints : movedTables.Constraints where
  id_unique := by simp [movedTables]
  ino_unique := by simp [movedTables]
  filename_unique := by simp [movedTables]
  extent_unique := by simp [movedTables]
  block_unique := by simp [movedTables]
  extent_fileid := by simp [movedTables, movedRow]
  block_fileid := by simp [movedTables]

theorem movedFile_moved : MovedFile movedTables movedVisit movedRow :=
  ⟨List.mem_cons_self, ⟨rfl, rfl⟩, rfl, ⟨rfl, rfl⟩, by decide, by decide⟩

/-- The visit of `/new` is not a rename alone. -/
theorem not_renameKept_moved :
    (ScanSys.started movedTables).lister = .idle ∧
    (ScanSys.started movedTables).conn.view = none ∧
    (ScanSys.started movedTables).tables.Constraints ∧
    MovedFile (ScanSys.started movedTables).tables movedVisit movedRow ∧
    ¬ RenameKept (.started movedTables) ((ScanSys.started movedTables).visit movedConfig movedVisit)
      movedRow movedVisit.path :=
  ⟨rfl, rfl, movedTables_constraints, movedFile_moved,
    not_renameKept movedConfig rfl rfl movedTables_constraints movedFile_moved⟩

/-- It replaces the row, deletes its extent and schedules the file. -/
theorem visit_movedTables :
    ((ScanSys.started movedTables).visit movedConfig movedVisit).tables =
        ⟨[⟨2, "/new", 10, 0, 8192, 1, 1, none, none⟩], [], []⟩ ∧
      ((ScanSys.started movedTables).visit movedConfig movedVisit).queue = [⟨"/new", 2, 8192⟩] ∧
      ¬ RenameKept (.started movedTables)
        ((ScanSys.started movedTables).visit movedConfig movedVisit) movedRow movedVisit.path := by
  refine ⟨by decide +kernel, by decide +kernel, fun hkept => ?_⟩
  have hqueue := hkept.queue
  revert hqueue
  decide +kernel

end Duperemove
