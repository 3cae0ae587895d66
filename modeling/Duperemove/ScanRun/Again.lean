-- SUMMARY: A scan after a scan: when no call failed and no file changed, nothing is stored and nothing is scheduled.
import Duperemove.FileScan.Holes
import Duperemove.ScanRun.Rename
import Duperemove.ScanRun.Robust

/-!
# Scanning again

A scan of a hashfile that exists leaves the files alone whose row is up to date. When no call
failed in the scan before and the filesystem stands still, that should be every file: the next
scan changes nothing.

It is less obvious than it looks. A row is found by the inode and replaced by the inode or by
the name, so a row that still has the name of a file that is gone can be in the way of another
one, and a file with several names has one row. A start deletes the rows without a digest, so
every row that was stored has to reach a worker.
-/

namespace Duperemove

open Transaction (Answer Conn)

-- ---------------------------------------------------------------------------
-- A filesystem that stands still
-- ---------------------------------------------------------------------------

/-- What `statx` says about a path. -/
structure PathFacts where
  ino : Nat
  subvol : Nat
  size : Nat
  mtime : Nat
  deriving DecidableEq, Repr

/-- The answers of a filesystem that nobody changes. An inode is the same under all its
    names. -/
structure StillFs where
  look : String → Option PathFacts
  alike : ∀ p q a b, look p = some a → look q = some b →
    a.ino = b.ino ∧ a.subvol = b.subvol → a = b

namespace StillFs

/-- The lister comes across the file at its path. -/
structure Lists (fs : StillFs) (v : ListedFile) : Prop where
  named : v.path ≠ ""
  look_path : fs.look v.path = some ⟨v.ino, v.subvol, v.size, v.mtime⟩
  gone_eq : ∀ path, v.gone path = (fs.look path).isNone

/-- The row does not have the name of another file. -/
structure InPlace (fs : StillFs) (f : FileRow) : Prop where
  named : f.filename ≠ ""
  inode_eq : ∀ a, fs.look f.filename = some a → a.ino = f.ino ∧ a.subvol = f.subvol

/-- The file of the row is where the row says and as it says. -/
def UpToDate (fs : StillFs) (f : FileRow) : Prop :=
  fs.look f.filename = some ⟨f.ino, f.subvol, f.size, f.mtime⟩

variable {fs : StillFs} {v : ListedFile} {f : FileRow}

/-- `__scan_file` tells the rows that are up to date from the others. -/
theorem isUpToDate_iff (hv : fs.Lists v) (hf : fs.InPlace f)
    (hinode : f.ino = v.ino ∧ f.subvol = v.subvol) :
    isUpToDate v ⟨f.id, f.mtime, f.size, f.filename⟩ = true ↔ fs.UpToDate f := by
  have hfacts : ∀ a, fs.look f.filename = some a → a = ⟨v.ino, v.subvol, v.size, v.mtime⟩ :=
    fun a ha => by
      obtain ⟨hino, hsubvol⟩ := hf.inode_eq a ha
      exact fs.alike _ _ _ _ ha hv.look_path ⟨hino.trans hinode.1, hsubvol.trans hinode.2⟩
  simp only [isUpToDate, Bool.and_eq_true, decide_eq_true_eq, Bool.not_eq_true']
  constructor
  · rintro ⟨⟨hmtime, hsize⟩, hkept⟩
    rw [UpToDate, hinode.1, hinode.2, hmtime, hsize]
    rw [isFileRenamed] at hkept
    split at hkept
    · next hsame =>
      rw [hsame.resolve_left hf.named]
      exact hv.look_path
    · rw [hv.gone_eq, Option.isNone_eq_false_iff, Option.isSome_iff_exists] at hkept
      obtain ⟨a, ha⟩ := hkept
      rw [ha, hfacts a ha]
  · intro hup
    have heq := hfacts _ hup
    simp only [PathFacts.mk.injEq] at heq
    refine ⟨⟨heq.2.2.2, heq.2.2.1⟩, ?_⟩
    rw [isFileRenamed]
    split
    · rfl
    · rw [hv.gone_eq, show fs.look f.filename = _ from hup]
      rfl

end StillFs

-- ---------------------------------------------------------------------------
-- Storing a file
-- ---------------------------------------------------------------------------

/-- The row that a visit inserts. -/
def ListedFile.row (v : ListedFile) (fileid seq : Nat) : FileRow :=
  ⟨fileid, v.path, v.ino, v.subvol, v.size, v.mtime, toInt seq, none, none⟩

section Store

variable {fs : StillFs} {v : ListedFile} {t : Tables} {id fileid seq : Nat} {renamed : Bool}
  {c : Conn Tables}

/-- The transaction of a visit when no call fails. -/
theorem scanFileStore_clean (v : ListedFile) (id seq : Nat) (renamed : Bool)
    (hview : c.view = none) :
    ∃ (u : Tables) (calls : Nat),
      u.files = (if renamed then c.durable.renameFile v.path id else c.durable).files ∧
      scanFileStore (fun _ => .done) v id renamed seq c =
        (.stored u.newRowid, ⟨u.writeFile (v.info seq), none, calls⟩) := by
  have hsize : v.mtime ≠ 0 ∨ v.size ≠ 0 := .inr (Nat.ne_of_gt v.size_pos)
  cases renamed with
  | true =>
    obtain ⟨u, hu, hstore⟩ := scanFileStore_renamed v id seq hview
    refine ⟨u, c.calls + 6, ?_, hstore⟩
    rw [hu]
    rfl
  | false =>
    obtain ⟨durable, view, calls⟩ := c
    cases hview
    refine ⟨(durable.removeBlockHashes id).removeExtentHashes id, calls + 5, rfl, ?_⟩
    simp only [scanFileStore, renameIfMoved, Transaction.begin, Transaction.call, Transaction.exec,
      Transaction.Conn.sees, Transaction.Conn.write, Transaction.Conn.count, removeOldHashes,
      if_pos hsize, storeFileInfo, Transaction.commit, Option.getD_some, Bool.false_eq_true,
      if_false]

/-- The rows of other inodes stay: none of them has the name of the file. -/
theorem mem_files_of_store (hv : fs.Lists v) (hplace : ∀ f ∈ t.files, fs.InPlace f)
    (hrenamed : renamed = true → ∃ f ∈ t.files, f.id = id ∧ f.ino = v.ino ∧ f.subvol = v.subvol)
    (hc : t.Constraints) {u : Tables}
    (hu : u.files = (if renamed then t.renameFile v.path id else t).files) {f : FileRow} :
    f ∈ (u.writeFile (v.info seq)).files ↔
      (f ∈ t.files ∧ ¬(f.ino = v.ino ∧ f.subvol = v.subvol)) ∨ f = v.row u.newRowid seq := by
  have hother : ∀ g ∈ t.files, ¬(g.ino = v.ino ∧ g.subvol = v.subvol) → g.filename ≠ v.path := by
    intro g hg hino heq
    have hlook := hv.look_path
    rw [← heq] at hlook
    obtain ⟨hino', hsubvol'⟩ := (hplace g hg).inode_eq _ hlook
    exact hino ⟨hino'.symm, hsubvol'.symm⟩
  rw [Tables.mem_writeFile_files, hu]
  refine or_congr ?_ Iff.rfl
  cases renamed with
  | false =>
    constructor
    · rintro ⟨hf, hino, -⟩
      exact ⟨hf, hino⟩
    · rintro ⟨hf, hino⟩
      exact ⟨hf, hino, hother f hf hino⟩
  | true =>
    obtain ⟨g, hg, hid, hinode⟩ := hrenamed rfl
    have hmine : ∀ f ∈ t.files, f.id = id → f.ino = v.ino ∧ f.subvol = v.subvol := by
      intro f hf hfid
      rwa [List.inj_on_of_nodup_map hc.id_unique hf hg (hfid.trans hid.symm)]
    constructor
    · rintro ⟨hf, hino, -⟩
      obtain ⟨g, hg, rfl | ⟨hgid, rfl⟩⟩ := Tables.exists_of_mem_renameFile hf
      · exact ⟨hg, hino⟩
      · exact absurd (hmine g hg hgid) hino
    · rintro ⟨hf, hino⟩
      have hfid : f.id ≠ id := fun heq => hino (hmine f hf heq)
      refine ⟨?_, hino, hother f hf hino⟩
      rw [if_pos rfl, Tables.renameFile, if_pos (List.any_eq_true.2 ⟨g, hg, decide_eq_true hid⟩)]
      refine List.mem_map.2 ⟨f, Tables.mem_deleteFiles_files.2 ⟨hf, ?_⟩, if_neg hfid⟩
      rw [decide_eq_false (hother f hf hino), Bool.false_and]

end Store

-- ---------------------------------------------------------------------------
-- Committing a file
-- ---------------------------------------------------------------------------

/-- Removing an element by its place is removing the one with its key. -/
theorem mem_eraseIdx_iff {α κ : Type} {key : α → κ} {l : List α} {i : Nat} {a b : α}
    (hnodup : (l.map key).Nodup) (ha : l[i]? = some a) :
    b ∈ l.eraseIdx i ↔ b ∈ l ∧ key b ≠ key a := by
  induction l generalizing i with
  | nil => cases ha
  | cons x l ih =>
    obtain ⟨hx, hnodup⟩ := List.nodup_cons.1 hnodup
    have hkey : ∀ c ∈ l, key c ≠ key x := fun c hc heq => hx (heq ▸ List.mem_map_of_mem hc)
    cases i with
    | zero =>
      obtain rfl : x = a := Option.some.inj ha
      rw [List.eraseIdx_cons_zero, List.mem_cons]
      constructor
      · exact fun hb => ⟨.inr hb, hkey b hb⟩
      · exact fun ⟨hb, hne⟩ => hb.resolve_left fun heq => hne (congrArg key heq)
    | succ i =>
      have ha : l[i]? = some a := ha
      rw [List.eraseIdx_cons_succ, List.mem_cons, List.mem_cons, ih hnodup ha, or_and_right]
      refine or_congr_left ⟨fun heq => ⟨heq, ?_⟩, And.left⟩
      rw [heq]
      exact (hkey a (List.mem_of_getElem? ha)).symm

/-- The rows of a scan that reached its commit come in order. -/
theorem inOrder_of_csumWholeFile {job : ScanJob} {h : Xxh DigestBytes} {thread : ThreadBuffer}
    {r : ScanCommit DigestBytes} (hscan : csumWholeFile job h thread = some r) :
    (r.blocks.Pairwise fun a b => a.loff < b.loff) ∧
      (r.extents.filter fun e => decide (e.len ≠ 0)).Pairwise fun a b => a.loff < b.loff := by
  obtain ⟨⟨exit, s⟩, hrun, hpost⟩ := scanLoop_any job h thread
  rw [csumWholeFile, csumWholeFileWith, hrun] at hscan
  obtain ⟨-, hhanded, -, hblocks, hextents⟩ := hpost.commitOf hscan
  rw [hextents]
  refine ⟨?_, hhanded.extents.sorted⟩
  rcases hblocks with hnone | hall
  · rw [hnone]
    exact List.Pairwise.nil
  · rw [hall]
    exact hhanded.blocks.sorted

/-- What the commit of a worker does to a row. -/
def ScanCommit.commitRow (r : ScanCommit DigestBytes) (fileid : Nat) (f : FileRow) : FileRow :=
  if f.id = fileid then { f with digest := some r.digest, flags := some r.flags } else f

section Commit

variable {r : ScanCommit DigestBytes} {fileid : Nat} {f : FileRow}

theorem ScanCommit.commitRow_id : (r.commitRow fileid f).id = f.id := by
  rw [commitRow]
  split <;> rfl

theorem ScanCommit.commitRow_inode :
    (r.commitRow fileid f).ino = f.ino ∧ (r.commitRow fileid f).subvol = f.subvol := by
  rw [commitRow]
  split <;> exact ⟨rfl, rfl⟩

theorem ScanCommit.commitRow_digest (hnull : (r.commitRow fileid f).digest = none) :
    f.id ≠ fileid ∧ f.digest = none := by
  rw [commitRow] at hnull
  split at hnull
  · cases hnull
  · next hne => exact ⟨hne, hnull⟩

theorem StillFs.upToDate_commitRow {fs : StillFs} :
    fs.UpToDate (r.commitRow fileid f) ↔ fs.UpToDate f := by
  rw [ScanCommit.commitRow]
  split <;> exact Iff.rfl

theorem StillFs.InPlace.commitRow {fs : StillFs} (hf : fs.InPlace f) :
    fs.InPlace (r.commitRow fileid f) := by
  rw [ScanCommit.commitRow]
  split
  · exact ⟨hf.named, hf.inode_eq⟩
  · exact hf

/-- The commit of a worker sets the digest of its file when no call fails. -/
theorem files_workerCommit {c : Conn Tables} (hview : c.view = none)
    (hhalf : c.durable.NoHalfStored)
    (hfile : ∃ f ∈ c.durable.files, f.id = fileid ∧ f.digest = none)
    (horder : (r.blocks.Pairwise fun a b => a.loff < b.loff) ∧
      (r.extents.filter fun e => decide (e.len ≠ 0)).Pairwise fun a b => a.loff < b.loff) :
    (workerCommit c (fun _ => .done) fileid r).durable.files =
      c.durable.files.map (r.commitRow fileid) := by
  have hok := csumCommit_succeeds hhalf hfile horder.1 horder.2
  rw [workerCommit, hview]
  rcases csumCommit_cases (fun _ => .done) fileid r ⟨c.durable, none, 0⟩ with
    ⟨hfail, -⟩ | ⟨-, t₁, t₂, hblocks, hextents, hdone⟩
  · rw [hok] at hfail
    cases hfail
  · have hadded := (addedHashes_blockStatements hblocks).trans
      (addedHashes_extentStatements hextents)
    dsimp only
    rw [hdone, ← show t₂.files = c.durable.files from hadded.files]
    rfl

end Commit

-- ---------------------------------------------------------------------------
-- A clean scan
-- ---------------------------------------------------------------------------

/-- The steps of a scan in which no call fails and every file is read to its end. -/
inductive CleanStep (fs : StillFs) : ScanEvent → Prop
  | describe {v : ListedFile} (hv : fs.Lists v) : CleanStep fs (.describe v true)
  | store {faults : Nat → Answer} (hfaults : ∀ n, faults n = .done) :
      CleanStep fs (.store faults true)
  | worker {i : Nat} {job : ScanJob} {h : Xxh DigestBytes} {thread : ThreadBuffer}
      {r : ScanCommit DigestBytes} {faults : Nat → Answer}
      (hscan : csumWholeFile job h thread = some r) (hfaults : ∀ n, faults n = .done) :
      CleanStep fs (.worker i (some r) faults)

/-- What the lister knows between its lookup and its transaction. -/
structure Pending (fs : StillFs) (t : Tables) (v : ListedFile) (id : Nat) (renamed : Bool) :
    Prop where
  lists : fs.Lists v
  stale : ∀ f ∈ t.files, f.ino = v.ino ∧ f.subvol = v.subvol → ¬fs.UpToDate f
  renamed : renamed = true → ∃ f ∈ t.files, f.id = id ∧ f.ino = v.ino ∧ f.subvol = v.subvol

/-- The inode has a row that is up to date. -/
def Tables.HasFile (fs : StillFs) (t : Tables) (inode : Nat × Nat) : Prop :=
  ∃ f ∈ t.files, (f.ino, f.subvol) = inode ∧ fs.UpToDate f

/-- The invariant of a clean scan: every visited inode has its row, and every row without a
    digest has its job. -/
structure ScanSys.Steady (fs : StillFs) (s : ScanSys) : Prop where
  running : s.running = true
  view : s.conn.view = none
  inPlace : ∀ f ∈ s.tables.files, fs.InPlace f
  upToDate : ∀ f ∈ s.tables.files, f.digest = none → fs.UpToDate f
  scheduled : ∀ f ∈ s.tables.files, f.digest = none → ∃ job ∈ s.queue, job.fileid = f.id
  jobs : ∀ job ∈ s.queue, ∃ f ∈ s.tables.files, f.id = job.fileid ∧ f.digest = none ∧
    f.filename = job.path ∧ f.size = job.filesize
  nodup : (s.queue.map FileToScan.fileid).Nodup
  visited : ∀ x ∈ s.visited, s.tables.HasFile fs x ∨
    ∃ v id renamed seq, s.lister = .described v id renamed seq ∧ x = (v.ino, v.subvol)
  lister : s.lister = .idle ∨ ∃ v id renamed seq, s.lister = .described v id renamed seq ∧
    Pending fs s.tables v id renamed

namespace ScanSys

variable {cfg : ScanConfig} {fs : StillFs} {s s' : ScanSys} {t : Tables}

/-- A scan starts with rows that have a digest. -/
theorem steady_started (hplace : ∀ f ∈ t.deleteUnscannedFiles.files, fs.InPlace f) :
    (started t.deleteUnscannedFiles).Steady fs where
  running := rfl
  view := rfl
  inPlace := hplace
  upToDate := fun f hf hnull => by
    have hsome := Tables.digest_of_mem_deleteUnscannedFiles hf
    rw [hnull] at hsome
    cases hsome
  scheduled := fun f hf hnull => by
    have hsome := Tables.digest_of_mem_deleteUnscannedFiles hf
    rw [hnull] at hsome
    cases hsome
  jobs := fun job hjob => by cases hjob
  nodup := List.nodup_nil
  visited := fun x hx => by cases hx
  lister := .inl rfl

theorem Steady.sees (h : s.Steady fs) : s.conn.sees = s.tables := by
  rw [Conn.sees, h.view]
  rfl

theorem Steady.hasFile (h : s.Steady fs) (hidle : s.lister = .idle) {x : Nat × Nat}
    (hx : x ∈ s.visited) : s.tables.HasFile fs x := by
  refine (h.visited x hx).resolve_right ?_
  rintro ⟨v, id, renamed, seq, heq, -⟩
  rw [hidle] at heq
  cases heq

/-- When the queue is empty every row has a digest. -/
theorem Steady.scanned (h : s.Steady fs) (hqueue : s.queue = []) :
    ∀ f ∈ s.tables.files, f.digest.isSome = true := by
  intro f hf
  rw [← Option.ne_none_iff_isSome]
  intro hnull
  obtain ⟨job, hjob, -⟩ := h.scheduled f hf hnull
  rw [hqueue] at hjob
  cases hjob

/-- A visit finds the row of the inode, or it finds none. -/
theorem Steady.describeFile (h : s.Steady fs) (hc : s.tables.Constraints) (hidle : s.lister = .idle)
    {v : ListedFile} (hv : fs.Lists v) : (describeFile cfg s v true).Steady fs := by
  have hold : ∀ x ∈ s.visited, s.tables.HasFile fs x := fun x hx => h.hasFile hidle hx
  have hfound : ∀ f ∈ s.tables.files, f.ino = v.ino ∧ f.subvol = v.subvol →
      (isUpToDate v (dbfileDescribeFile s.tables v.ino v.subvol) = true ↔ fs.UpToDate f) := by
    intro f hf hinode
    rw [dbfileDescribeFile_of_mem hc hf hinode]
    exact StillFs.isUpToDate_iff hv (h.inPlace f hf) hinode
  rcases describeFile_cases cfg s v true with ⟨heq, hskip⟩ | ⟨heq, hstale⟩ <;>
    rw [heq] <;> rw [h.sees] at *
  · have hup := hskip.resolve_left Bool.true_eq_false.mp
    obtain ⟨f, hf, hino, hsubvol, -⟩ := exists_of_isUpToDate hup
    have hhas : s.tables.HasFile fs (v.ino, v.subvol) :=
      ⟨f, hf, Prod.ext hino hsubvol, (hfound f hf ⟨hino, hsubvol⟩).1 hup⟩
    refine { h with visited := fun x hx => .inl ?_ }
    rcases List.mem_cons.1 hx with rfl | hx
    · exact hhas
    · exact hold x hx
  · refine { h with visited := fun x hx => ?_, lister := .inr ⟨_, _, _, _, rfl, hv, ?_, ?_⟩ }
    · rcases List.mem_cons.1 hx with rfl | hx
      · exact .inr ⟨_, _, _, _, rfl, rfl⟩
      · exact .inl (hold x hx)
    · exact fun f hf hinode hup => hstale (.inr ((hfound f hf hinode).2 hup))
    · intro hrenamed
      rw [dbfileDescribeFile] at hrenamed ⊢
      cases hfind : s.tables.files.find? fun f =>
          decide (f.ino = v.ino ∧ f.subvol = v.subvol) with
      | none =>
        rw [hfind] at hrenamed
        simp [isFileRenamed] at hrenamed
      | some f =>
        have hinode := List.find?_some hfind
        exact ⟨f, List.mem_of_find?_eq_some hfind, rfl, of_decide_eq_true hinode⟩

/-- A store inserts the row of the file and schedules it. The rows of other inodes stay. -/
theorem Steady.store_spec (h : s.Steady fs) (hc : s.tables.Constraints)
    (hstep : scanStep cfg s (.store (fun _ => .done) true) = some s') :
    ∃ v id renamed seq, ∃ (u : Tables) (calls : Nat), s.lister = .described v id renamed seq ∧
      Pending fs s.tables v id renamed ∧
      s' = { s with
        conn := ⟨u.writeFile (v.info seq), none, calls⟩
        lister := .idle
        queue := s.queue ++ [⟨v.path, u.newRowid, v.size⟩] } ∧
      ∀ f, f ∈ (u.writeFile (v.info seq)).files ↔
        (f ∈ s.tables.files ∧ ¬(f.ino = v.ino ∧ f.subvol = v.subvol)) ∨
          f = v.row u.newRowid seq := by
  obtain ⟨v, id, renamed, seq, hdescribed, ret, lister, queue, hret, rfl, hdone⟩ :=
    scanStep_store hstep
  have hpending : Pending fs s.tables v id renamed := by
    rcases h.lister with hidle | ⟨v', id', renamed', seq', heq, hpending⟩
    · rw [hidle] at hdescribed
      cases hdescribed
    · rw [heq] at hdescribed
      cases hdescribed
      exact hpending
  obtain ⟨u, calls, hu, hstore⟩ := scanFileStore_clean v id seq renamed h.view
  rw [hstore] at hret ⊢
  obtain rfl : .stored u.newRowid = ret := hret
  obtain ⟨rfl, rfl⟩ : lister = .idle ∧ queue = s.queue ++ [⟨v.path, u.newRowid, v.size⟩] := by
    obtain ⟨heq, -⟩ | ⟨heq, -⟩ | ⟨fileid, heq, hlister, hqueue⟩ := hdone
    · cases heq
    · cases heq
    · cases heq
      exact ⟨hlister, hqueue⟩
  exact ⟨v, id, renamed, seq, u, calls, hdescribed, hpending, rfl,
    fun f => mem_files_of_store hpending.lists h.inPlace hpending.renamed hc hu⟩

/-- A stored file takes the place of its old row, and is scheduled. -/
theorem Steady.store (h : s.Steady fs) (hc : s.tables.Constraints)
    (hstep : scanStep cfg s (.store (fun _ => .done) true) = some s') : s'.Steady fs := by
  obtain ⟨v, id, renamed, seq, u, calls, hdescribed, hpending, rfl, hmem⟩ := h.store_spec hc hstep
  have hnew : v.row u.newRowid seq ∈ (u.writeFile (v.info seq)).files := (hmem _).2 (.inr rfl)
  have hup : fs.UpToDate (v.row u.newRowid seq) := hpending.lists.look_path
  have hkept : ∀ f ∈ s.tables.files, fs.UpToDate f → f ∈ (u.writeFile (v.info seq)).files :=
    fun f hf hupf => (hmem f).2 (.inl ⟨hf, fun hinode => hpending.stale f hf hinode hupf⟩)
  refine ⟨h.running, rfl, ?_, ?_, ?_, ?_, ?_, ?_, .inl rfl⟩
  · intro f hf
    rcases (hmem f).1 hf with ⟨hf, -⟩ | rfl
    · exact h.inPlace f hf
    · refine ⟨hpending.lists.named, fun a ha => ?_⟩
      obtain rfl : a = _ := Option.some.inj (ha.symm.trans hup)
      exact ⟨rfl, rfl⟩
  · intro f hf hnull
    rcases (hmem f).1 hf with ⟨hf, -⟩ | rfl
    · exact h.upToDate f hf hnull
    · exact hup
  · intro f hf hnull
    rcases (hmem f).1 hf with ⟨hf, -⟩ | rfl
    · obtain ⟨job, hjob, hid⟩ := h.scheduled f hf hnull
      exact ⟨job, List.mem_append_left _ hjob, hid⟩
    · exact ⟨_, List.mem_append_right _ List.mem_cons_self, rfl⟩
  · intro job hjob
    rcases List.mem_append.1 hjob with hjob | hjob
    · obtain ⟨f, hf, hid, hnull, hfile⟩ := h.jobs job hjob
      exact ⟨f, hkept f hf (h.upToDate f hf hnull), hid, hnull, hfile⟩
    · rw [List.mem_singleton.1 hjob]
      exact ⟨_, hnew, rfl, rfl, rfl, rfl⟩
  · -- The new id is larger than those of the rows that stay, and the jobs have such rows.
    rw [List.map_append, List.map_singleton, ← List.concat_eq_append, List.nodup_concat]
    refine ⟨fun hin => ?_, h.nodup⟩
    obtain ⟨job, hjob, hid⟩ := List.mem_map.1 hin
    obtain ⟨f, hf, hfid, hnull, -⟩ := h.jobs job hjob
    have hupf := h.upToDate f hf hnull
    rcases Tables.mem_writeFile_files.1 (hkept f hf hupf) with ⟨hin, -⟩ | hrow
    · exact Nat.ne_of_lt (Tables.lt_newRowid hin) (hfid.trans hid)
    · refine hpending.stale f hf ?_ hupf
      rw [hrow]
      exact ⟨rfl, rfl⟩
  · intro x hx
    left
    rcases h.visited x hx with ⟨f, hf, hinode, hupf⟩ | ⟨v', id', renamed', seq', heq, rfl⟩
    · exact ⟨f, hkept f hf hupf, hinode, hupf⟩
    · rw [hdescribed] at heq
      cases heq
      exact ⟨_, hnew, rfl, hup⟩

/-- A worker sets the digest of the row of its job. -/
theorem Steady.worker_spec (h : s.Steady fs) (hn : s.tables.NoHalfStored) {i : Nat}
    {job : ScanJob} {x : Xxh DigestBytes} {thread : ThreadBuffer} {r : ScanCommit DigestBytes}
    (hscan : csumWholeFile job x thread = some r)
    (hstep : scanStep cfg s (.worker i (some r) fun _ => .done) = some s') :
    ∃ queued conn, s.queue[i]? = some queued ∧ conn.view = none ∧
      s' = { s with conn, queue := s.queue.eraseIdx i } ∧
      ∀ f, f ∈ s'.tables.files ↔ ∃ g ∈ s.tables.files, r.commitRow queued.fileid g = f := by
  obtain ⟨queued, hqueued, ⟨heq, -⟩ | ⟨r', heq, -, rfl⟩⟩ := scanStep_worker hstep
  · cases heq
  cases heq
  obtain ⟨f, hf, hid, hnull, -⟩ := h.jobs queued (List.mem_of_getElem? hqueued)
  have hfiles : (workerCommit s.conn (fun _ => .done) queued.fileid r).durable.files =
      s.tables.files.map (r.commitRow queued.fileid) :=
    files_workerCommit h.view hn ⟨f, hf, hid, hnull⟩ (inOrder_of_csumWholeFile hscan)
  refine ⟨queued, _, hqueued, (workerCommit_cases s.conn _ queued.fileid r).1.trans h.view, rfl,
    fun f => ?_⟩
  rw [ScanSys.tables, hfiles, List.mem_map]

/-- A worker takes its job and gives the row its digest. -/
theorem Steady.worker (h : s.Steady fs) (hn : s.tables.NoHalfStored) {i : Nat} {job : ScanJob}
    {x : Xxh DigestBytes} {thread : ThreadBuffer} {r : ScanCommit DigestBytes}
    (hscan : csumWholeFile job x thread = some r)
    (hstep : scanStep cfg s (.worker i (some r) fun _ => .done) = some s') : s'.Steady fs := by
  obtain ⟨job, conn, hjob, hview, rfl, hmem⟩ := h.worker_spec hn hscan hstep
  have hrest : ∀ other, other ∈ s.queue.eraseIdx i ↔
      other ∈ s.queue ∧ other.fileid ≠ job.fileid := fun _ => mem_eraseIdx_iff h.nodup hjob
  refine ⟨h.running, hview, ?_, ?_, ?_, ?_, ?_, ?_, ?_⟩
  · intro f hf
    obtain ⟨g, hg, rfl⟩ := (hmem f).1 hf
    exact (h.inPlace g hg).commitRow
  · intro f hf hnull
    obtain ⟨g, hg, rfl⟩ := (hmem f).1 hf
    exact StillFs.upToDate_commitRow.2 (h.upToDate g hg (ScanCommit.commitRow_digest hnull).2)
  · intro f hf hnull
    obtain ⟨g, hg, rfl⟩ := (hmem f).1 hf
    obtain ⟨hne, hnull⟩ := ScanCommit.commitRow_digest hnull
    obtain ⟨other, hother, hid⟩ := h.scheduled g hg hnull
    rw [ScanCommit.commitRow_id]
    exact ⟨other, (hrest other).2 ⟨hother, fun heq => hne (hid.symm.trans heq)⟩, hid⟩
  · intro other hother
    obtain ⟨hother, hne⟩ := (hrest other).1 hother
    obtain ⟨f, hf, hid, hnull, hfile⟩ := h.jobs other hother
    exact ⟨f, (hmem f).2 ⟨f, hf, if_neg fun heq => hne (hid.symm.trans heq)⟩, hid, hnull, hfile⟩
  · exact h.nodup.sublist ((List.eraseIdx_sublist ..).map _)
  · intro y hy
    refine (h.visited y hy).imp_left fun ⟨f, hf, hinode, hup⟩ => ?_
    refine ⟨_, (hmem _).2 ⟨f, hf, rfl⟩, ?_, StillFs.upToDate_commitRow.2 hup⟩
    rw [← hinode]
    exact Prod.ext ScanCommit.commitRow_inode.1 ScanCommit.commitRow_inode.2
  · refine h.lister.imp_right fun ⟨v, id, renamed, seq, heq, hpending⟩ => ?_
    refine ⟨v, id, renamed, seq, heq, hpending.lists, fun f hf hinode => ?_, fun hrenamed => ?_⟩
    · obtain ⟨g, hg, rfl⟩ := (hmem f).1 hf
      rw [ScanCommit.commitRow_inode.1, ScanCommit.commitRow_inode.2] at hinode
      exact fun hup => hpending.stale g hg hinode (StillFs.upToDate_commitRow.1 hup)
    · obtain ⟨g, hg, hid, hino, hsubvol⟩ := hpending.renamed hrenamed
      exact ⟨_, (hmem _).2 ⟨g, hg, rfl⟩, ScanCommit.commitRow_id.trans hid,
        ScanCommit.commitRow_inode.1.trans hino, ScanCommit.commitRow_inode.2.trans hsubvol⟩

theorem Steady.step (h : s.Steady fs) (hinv : s.Inv) {event : ScanEvent}
    (hclean : CleanStep fs event) (hstep : scanStep cfg s event = some s') : s'.Steady fs := by
  obtain ⟨hc, hn⟩ := hinv.tables_sound
  cases hclean with
  | describe hv =>
    obtain ⟨-, hidle, rfl⟩ := scanStep_describe hstep
    exact h.describeFile hc hidle hv
  | store hfaults =>
    obtain rfl := funext hfaults
    exact h.store hc hstep
  | worker hscan hfaults =>
    obtain rfl := funext hfaults
    exact h.worker hn hscan hstep

theorem Steady.run (h : s.Steady fs) (hinv : s.Inv) {events : List ScanEvent}
    (hclean : ∀ e ∈ events, CleanStep fs e) (hrun : scanRun cfg s events = some s') :
    s'.Steady fs := by
  suffices hboth : s'.Steady fs ∧ s'.Inv from hboth.1
  refine Steps.run_keeps (fun s => s.Steady fs ∧ s.Inv) ?_ ⟨h, hinv⟩ hrun
  rintro event hevent s s' ⟨h, hinv⟩ hstep
  exact ⟨h.step hinv (hclean event hevent) hstep, hinv.scanStep hstep⟩

end ScanSys

-- ---------------------------------------------------------------------------
-- The next scan
-- ---------------------------------------------------------------------------

/-- Nothing is pruned when every row has its digest. -/
theorem Tables.deleteUnscannedFiles_eq {t : Tables} (h : ∀ f ∈ t.files, f.digest.isSome = true) :
    t.deleteUnscannedFiles = t := by
  have hkeep : ∀ f ∈ t.files, f.digest.isNone = false := fun f hf => by
    rw [← Option.not_isSome, h f hf]
    rfl
  have hany : ∀ fileid, (t.files.any fun f => f.digest.isNone && decide (f.id = fileid)) = false :=
    fun fileid => List.any_eq_false.2 fun f hf => by simp [hkeep f hf]
  obtain ⟨files, extents, blocks⟩ := t
  simp only [deleteUnscannedFiles, deleteFiles, hany, Bool.not_false, List.filter_true,
    Tables.mk.injEq, and_self, and_true]
  exact List.filter_eq_self.2 fun f hf => by simp [hkeep f hf]

section Again

variable {cfg : ScanConfig} {fs : StillFs} {s : ScanSys} {again : List ListedFile}

/-- Visits of files that are up to date leave everything but the numbers of the batch. -/
theorem scanRun_upToDate (hr : s.running = true) (hidle : s.lister = .idle)
    (hup : ∀ v ∈ again,
      isUpToDate v (dbfileDescribeFile s.conn.sees v.ino v.subvol) = true) :
    ∃ s', scanRun cfg s (again.map fun v => .describe v true) = some s' ∧ s'.conn = s.conn ∧
      s'.lister = .idle ∧ s'.queue = s.queue ∧ s'.given = s.given := by
  induction again generalizing s with
  | nil => exact ⟨s, rfl, rfl, hidle, rfl, rfl⟩
  | cons v again ih =>
    have hskip := hup v List.mem_cons_self
    have hvisit : describeFile cfg s v true = { s with
        batch := s.batch.enter cfg.dedupeSeq
        visited := (v.ino, v.subvol) :: s.visited } := by
      rcases describeFile_cases cfg s v true with ⟨heq, -⟩ | ⟨-, hstale⟩
      · exact heq
      · exact absurd (.inr hskip) hstale
    have hstep : scanStep cfg s (.describe v true) = some (describeFile cfg s v true) := by
      simp only [scanStep, hr, hidle]
    obtain ⟨s', hrun, hrest⟩ := @ih (describeFile cfg s v true) (by rwa [hvisit])
      (by rwa [hvisit]) (by
        rw [hvisit]
        exact fun w hw => hup w (List.mem_cons_of_mem _ hw))
    rw [hvisit] at hrest
    exact ⟨s', Steps.run_cons.2 ⟨_, hstep, hrun⟩, hrest⟩

end Again

/-- When a scan ran to its end without a failure, on a filesystem that stands still, each file
    it visited has a row with a digest, and the next scan finds nothing to do: whatever the
    order of the steps was, in whatever order it visits those files, and under whichever of
    their names. -/
theorem scanRun_again {cfg cfg' : ScanConfig} {fs : StillFs} {t : Tables} {s : ScanSys}
    {events : List ScanEvent} {again : List ListedFile} (hc : t.Constraints)
    (hplace : ∀ f ∈ t.deleteUnscannedFiles.files, fs.InPlace f)
    (hclean : ∀ e ∈ events, CleanStep fs e)
    (hrun : scanRun cfg (.started t.deleteUnscannedFiles) events = some s)
    (hidle : s.lister = .idle) (hqueue : s.queue = [])
    (hagain : ∀ v ∈ again, fs.Lists v ∧ (v.ino, v.subvol) ∈ s.visited) :
    (∀ x ∈ s.visited, ∃ f ∈ s.tables.files, (f.ino, f.subvol) = x ∧ fs.UpToDate f ∧
      f.digest.isSome = true) ∧
    ∃ s', scanRun cfg' s (.kill :: .start true :: again.map fun v => .describe v true) = some s' ∧
      s'.tables = s.tables ∧ s'.lister = .idle ∧ s'.queue = [] ∧ s'.given = [] := by
  have hstart := ScanSys.inv_started hc
  have hinv := hstart.scanRun hrun
  have hs := (ScanSys.steady_started hplace).run hstart hclean hrun
  have hscanned := hs.scanned hqueue
  have hhas : ∀ x ∈ s.visited, s.tables.HasFile fs x := fun x hx => hs.hasFile hidle hx
  refine ⟨fun x hx => ?_, ?_⟩
  · obtain ⟨f, hf, hinode, hup⟩ := hhas x hx
    exact ⟨f, hf, hinode, hup, hscanned f hf⟩
  have hup : ∀ v ∈ again,
      isUpToDate v (dbfileDescribeFile (ScanSys.started s.tables).conn.sees v.ino v.subvol) =
        true := fun v hv => by
    obtain ⟨hlists, hvisited⟩ := hagain v hv
    obtain ⟨f, hf, hinode, hupf⟩ := hhas _ hvisited
    obtain ⟨hino, hsubvol⟩ := Prod.mk.inj hinode
    have hdescribed := dbfileDescribeFile_of_mem hinv.tables_sound.1 hf ⟨hino, hsubvol⟩
    rw [show (ScanSys.started s.tables).conn.sees = s.tables from rfl, hdescribed]
    exact (StillFs.isUpToDate_iff hlists (hs.inPlace f hf) ⟨hino, hsubvol⟩).2 hupf
  obtain ⟨s', hrun', hconn, hidle', hqueue', hgiven⟩ :=
    @scanRun_upToDate cfg' (.started s.tables) again rfl rfl hup
  refine ⟨s', ?_, by rw [ScanSys.tables, hconn]; rfl, hidle', hqueue', hgiven⟩
  refine Steps.run_cons.2 ⟨.stopped s.tables, rfl, Steps.run_cons.2 ⟨.started s.tables, ?_, hrun'⟩⟩
  have hprune := Tables.deleteUnscannedFiles_eq hscanned
  simp only [scanStep, ScanSys.stopped, ScanSys.tables, Bool.false_eq_true, if_false, if_true]
  rw [← ScanSys.tables, hprune]

/-- One file under two names. -/
def linkedLook (path : String) : Option PathFacts :=
  if path = "/new" ∨ path = "/link" then some ⟨10, 0, 8192, 1⟩ else none

theorem linkedLook_alike (p q : String) (a b : PathFacts) (ha : linkedLook p = some a)
    (hb : linkedLook q = some b) (_ : a.ino = b.ino ∧ a.subvol = b.subvol) : a = b := by
  simp only [linkedLook, Option.ite_none_right_eq_some, Option.some.injEq] at ha hb
  exact ha.2.symm.trans hb.2

def linkedFs : StillFs := ⟨linkedLook, linkedLook_alike⟩

def linkedVisit (path : String) : ListedFile where
  path
  ino := 10
  subvol := 0
  size := 8192
  mtime := 1
  gone := fun path => (linkedLook path).isNone
  size_pos := movedSize_pos

theorem linkedVisit_lists {path : String} (hpath : path = "/new" ∨ path = "/link") :
    linkedFs.Lists (linkedVisit path) :=
  ⟨by rcases hpath with rfl | rfl <;> decide, if_pos hpath, fun _ => rfl⟩

theorem csumWholeFile_sampleJob_zero : (csumWholeFile sampleJob .zero .fresh).isSome := by
  refine (@csumWholeFile_commits_iff _ sampleJob _ .zero .fresh rfl
    (readsFile_ofContent (by decide))).2 ?_
  rw [missesExtent_iff rfl, sampleJob_filesize]
  intro hall
  exact absurd (hall _ (List.mem_singleton.2 rfl)) (by decide)

/-- The file was `/old` when it was scanned. The scan under one of its names replaces the row,
    and the next one under the other name leaves it alone. -/
theorem scanRun_again_linked : ∃ r s,
    scanRun movedConfig (.started movedTables.deleteUnscannedFiles)
      [.describe (linkedVisit "/new") true, .store (fun _ => .done) true,
        .worker 0 (some r) fun _ => .done] = some s ∧
    (∀ x ∈ s.visited, ∃ f ∈ s.tables.files, (f.ino, f.subvol) = x ∧ linkedFs.UpToDate f ∧
      f.digest.isSome = true) ∧
    ∃ s', scanRun movedConfig s [.kill, .start true, .describe (linkedVisit "/link") true] =
        some s' ∧ s'.tables = s.tables ∧ s'.lister = .idle ∧ s'.queue = [] ∧ s'.given = [] := by
  obtain ⟨r, hr⟩ := Option.isSome_iff_exists.1 csumWholeFile_sampleJob_zero
  have hplace : ∀ f ∈ movedTables.deleteUnscannedFiles.files, linkedFs.InPlace f := fun f hf => by
    obtain rfl : f = movedRow := List.mem_singleton.1 (Tables.mem_deleteFiles_files.1 hf).1
    exact ⟨by decide, fun a ha => by cases ha⟩
  refine ⟨r, _, rfl, @scanRun_again movedConfig movedConfig linkedFs movedTables _
    [.describe (linkedVisit "/new") true, .store (fun _ => .done) true,
      .worker 0 (some r) fun _ => .done] [linkedVisit "/link"] movedTables_constraints hplace
    (fun e he => ?_) rfl rfl rfl fun v hv => ?_⟩
  · simp only [List.mem_cons, List.not_mem_nil, or_false] at he
    rcases he with rfl | rfl | rfl
    · exact .describe (linkedVisit_lists (.inl rfl))
    · exact .store fun _ => rfl
    · exact .worker hr fun _ => rfl
  · obtain rfl := List.mem_singleton.1 hv
    exact ⟨linkedVisit_lists (.inr rfl), List.mem_singleton.2 rfl⟩

end Duperemove
