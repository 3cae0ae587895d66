-- SUMMARY: A whole scan as a machine: the lister's upserts, the workers' commits, failures, kills and restarts.
import Duperemove.Dbfile.Statements
import Duperemove.Lib.Steps
import Duperemove.Lib.Transaction
import Duperemove.Lib.Word

/-!
# A scan

The lister comes across files, stores a row for each one that is not up to date,
and schedules it. Workers hash the scheduled files and commit the result. Both
work on the same hashfile, under a lock that they hold for a transaction, so a
transaction is one step; the calls of a worker's transaction, which read the shared
handle again, come apart in the machine of the shared handle. The lister reads its
row before it takes the lock, and that is a step of its own. Any call may fail, with
its transaction left open or rolled back by SQLite, and the process may be killed
between any two steps.
-/

namespace Duperemove

open Transaction (Answer Conn)

-- ---------------------------------------------------------------------------
-- The lister
-- ---------------------------------------------------------------------------

/-- A regular file that passed `check_file`, which skips empty files: its path,
    what `statx` says about it, and for which paths `lstat` fails. -/
structure ListedFile where
  path : String
  ino : Nat
  subvol : Nat
  size : Nat
  mtime : Nat
  gone : String → Bool
  size_pos : 0 < size

/-- What `dbfile_describe_file` reads into `struct file`. -/
structure DescribedFile where
  id : Nat
  mtime : Nat
  size : Nat
  filename : String
  deriving DecidableEq, Repr

/-- `dbfile_describe_file`. Without a row the structure stays zeroed. -/
def dbfileDescribeFile (t : Tables) (ino subvol : Nat) : DescribedFile :=
  match t.files.find? fun f => decide (f.ino = ino ∧ f.subvol = subvol) with
  | none => ⟨0, 0, 0, ""⟩
  | some f => ⟨f.id, f.mtime, f.size, f.filename⟩

def isFileRenamed (v : ListedFile) (pathInDb : String) : Bool :=
  if pathInDb = "" ∨ pathInDb = v.path then false else v.gone pathInDb

/-- The condition under which `__scan_file` has nothing to do. -/
def isUpToDate (v : ListedFile) (d : DescribedFile) : Bool :=
  decide (d.mtime = v.mtime) && decide (d.size = v.size) && !isFileRenamed v d.filename

/-- The static variables `seq` and `counter` of `__scan_file`. -/
structure Batch where
  seq : Nat
  counter : Nat
  deriving DecidableEq, Repr

/-- The first call starts behind the sequence number of the hashfile. -/
def Batch.enter (b : Batch) (dedupeSeq : Nat) : Batch :=
  if b.seq = 0 then { b with seq := Word.wrap 32 (dedupeSeq + 1) } else b

/-- One more file: every `batchSize` files the number goes up. -/
def Batch.next (b : Batch) (batchSize : Nat) : Batch :=
  if batchSize ≠ 0 then
    if Word.wrap 32 (b.counter + 1) ≥ batchSize then ⟨Word.wrap 32 (b.seq + 1), 0⟩
    else { b with counter := Word.wrap 32 (b.counter + 1) }
  else b

/-- The value of an `unsigned int` that is passed as an `int`. -/
def toInt (n : Nat) : Int := if n < 2 ^ 31 then n else n - 2 ^ 32

inductive StoreRet where
  | renameFailed
  | notStored
  | stored (fileid : Nat)
  deriving DecidableEq, Repr

def renameIfMoved (faults : Nat → Answer) (v : ListedFile) (id : Nat) (renamed : Bool)
    (c : Conn Tables) : Bool × Conn Tables :=
  if renamed then Transaction.exec faults (fun t => some (t.renameFile v.path id)) c else (true, c)

/-- `dbfile_remove_hashes`, whose return value is not checked. -/
def removeOldHashes (faults : Nat → Answer) (v : ListedFile) (id : Nat) (c : Conn Tables) :
    Conn Tables :=
  if v.mtime ≠ 0 ∨ v.size ≠ 0 then
    let c := (Transaction.exec faults (fun t => some (t.removeBlockHashes id)) c).2
    (Transaction.exec faults (fun t => some (t.removeExtentHashes id)) c).2
  else c

def ListedFile.info (v : ListedFile) (seq : Nat) : FileInfo :=
  ⟨v.ino, v.subvol, v.path, v.size, v.mtime, toInt seq⟩

/-- `dbfile_store_file_info` and the end of the transaction. The return value of
    the commit is not checked. -/
def storeFileInfo (faults : Nat → Answer) (v : ListedFile) (seq : Nat) (c : Conn Tables) :
    StoreRet × Conn Tables :=
  let fileid := c.sees.newRowid
  match Transaction.exec faults (fun t => some (t.writeFile (v.info seq))) c with
  | (false, c) => (.notStored, (Transaction.rollback faults c).2)
  | (true, c) => (.stored fileid, (Transaction.commit faults c).2)

/-- The transaction of `__scan_file`. A failed rename returns without a rollback
    and without unlocking. -/
def scanFileStore (faults : Nat → Answer) (v : ListedFile) (id : Nat) (renamed : Bool) (seq : Nat)
    (c : Conn Tables) : StoreRet × Conn Tables :=
  match renameIfMoved faults v id renamed (Transaction.begin faults c).2 with
  | (false, c) => (.renameFailed, c)
  | (true, c) => storeFileInfo faults v seq (removeOldHashes faults v id c)

-- ---------------------------------------------------------------------------
-- The workers
-- ---------------------------------------------------------------------------

/-- `struct file_to_scan` -/
structure FileToScan where
  path : String
  fileid : Nat
  filesize : Nat
  deriving DecidableEq, Repr

/-- The digest of an entry whose memory `calloc` cleared. -/
def zeroDigest : DigestBytes := Vector.replicate digestLen 0

/-- `dbfile_store_block_hashes` -/
def blockStatements (fileid : Nat) (blocks : List (BlockCsum DigestBytes)) :
    List (Tables → Option Tables) :=
  blocks.map fun b t => t.insertBlock ⟨b.digest, fileid, b.loff⟩

/-- `dbfile_store_extent_hashes`, which skips extents that were never scanned. -/
def extentStatements (fileid : Nat) (extents : List (ExtentCsum DigestBytes)) :
    List (Tables → Option Tables) :=
  (extents.filter fun e => decide (e.len ≠ 0)).map fun e t =>
    t.insertExtent ⟨e.digest.getD zeroDigest, fileid, e.loff, e.poff, e.len⟩

/-- The transaction at the end of `csum_whole_file`, with whether it was
    committed. -/
def csumCommit (faults : Nat → Answer) (fileid : Nat) (r : ScanCommit DigestBytes)
    (c : Conn Tables) : Bool × Conn Tables :=
  match Transaction.begin faults c with
  | (false, c) => (false, c)
  | (true, c) =>
    match Transaction.execAll faults (blockStatements fileid r.blocks) c with
    | (false, c) => (false, (Transaction.rollback faults c).2)
    | (true, c) =>
      match Transaction.execAll faults (extentStatements fileid r.extents) c with
      | (false, c) => (false, (Transaction.rollback faults c).2)
      | (true, c) =>
        match Transaction.exec faults
            (fun t => some (t.updateScannedFile r.digest r.flags fileid)) c with
        | (false, c) => (false, (Transaction.rollback faults c).2)
        | (true, c) => Transaction.commit faults c

-- ---------------------------------------------------------------------------
-- The machine
-- ---------------------------------------------------------------------------

/-- Where the lister is: between two files, in front of the transaction for one,
    stuck with the lock in its hands, or done. -/
inductive Lister where
  | idle
  | described (v : ListedFile) (id : Nat) (renamed : Bool) (seq : Nat)
  | stuck
  | ended

/-- The sequence number of the hashfile and `options.batch_size`, both of them
    `unsigned int`. -/
structure ScanConfig where
  dedupeSeq : Nat
  batchSize : Nat
  dedupeSeq_lt : dedupeSeq < 2 ^ 32
  batchSize_lt : batchSize < 2 ^ 32

/-- The state of a scan. `conn` is the connection of the lister, and its durable
    part is the hashfile. `visited` and `given` are the files the lister came
    across since the start and the sequence numbers it gave. -/
structure ScanSys where
  conn : Conn Tables
  running : Bool
  batch : Batch
  lister : Lister
  queue : List FileToScan
  visited : List (Nat × Nat)
  given : List Nat

namespace ScanSys

/-- The hashfile when no process has it open. -/
def stopped (t : Tables) : ScanSys := ⟨⟨t, none, 0⟩, false, ⟨0, 0⟩, .idle, [], [], []⟩

/-- A process that is about to list its first file. -/
def started (t : Tables) : ScanSys := ⟨⟨t, none, 0⟩, true, ⟨0, 0⟩, .idle, [], [], []⟩

/-- The tables of the hashfile. -/
def tables (s : ScanSys) : Tables := s.conn.durable

end ScanSys

inductive ScanEvent where
  /-- A process starts and prunes the files that were not scanned. -/
  | start (pruned : Bool)
  /-- The lister comes across a file and looks it up. -/
  | describe (v : ListedFile) (ok : Bool)
  /-- The lister stores the file and schedules it. -/
  | store (faults : Nat → Answer) (pushed : Bool)
  /-- A worker is done with a file, and commits what it has. -/
  | worker (i : Nat) (result : Option (ScanCommit DigestBytes)) (faults : Nat → Answer)
  /-- The process ends, whatever it is doing. -/
  | kill

/-- What a visit does before the lock is taken. -/
def describeFile (cfg : ScanConfig) (s : ScanSys) (v : ListedFile) (ok : Bool) : ScanSys :=
  let batch := s.batch.enter cfg.dedupeSeq
  let d := dbfileDescribeFile s.conn.sees v.ino v.subvol
  let s := { s with batch := batch, visited := (v.ino, v.subvol) :: s.visited }
  if ok = false ∨ isUpToDate v d = true then s
  else
    let batch := batch.next cfg.batchSize
    { s with
      batch := batch
      given := s.given ++ [batch.seq]
      lister := .described v d.id (isFileRenamed v d.filename) batch.seq }

/-- The transaction of a worker as a single step, on a handle that is not replaced
    inside it. While the lister has a transaction open, nobody else can write. A
    transaction that a worker leaves open is never committed: its connection cannot
    begin another one. -/
def workerCommit (c : Conn Tables) (faults : Nat → Answer) (fileid : Nat)
    (r : ScanCommit DigestBytes) : Conn Tables :=
  match c.view with
  | some _ => c
  | none => { c with durable := (csumCommit faults fileid r ⟨c.durable, none, 0⟩).2.durable }

/-- One step; `none` when it cannot happen in this state. -/
def scanStep (cfg : ScanConfig) (s : ScanSys) : ScanEvent → Option ScanSys
  | .start pruned =>
    if s.running then none
    else if pruned then some (.started s.tables.deleteUnscannedFiles)
    else some (.stopped s.tables)
  | .describe v ok =>
    match s.running, s.lister with
    | true, .idle => some (describeFile cfg s v ok)
    | _, _ => none
  | .store faults pushed =>
    match s.lister with
    | .described v id renamed seq =>
      match scanFileStore faults v id renamed seq s.conn with
      | (.renameFailed, c) => some { s with conn := c, lister := .stuck }
      | (.notStored, c) => some { s with conn := c, lister := .idle }
      | (.stored fileid, c) =>
        if pushed then some { s with
          conn := c
          lister := .idle
          queue := s.queue ++ [⟨v.path, fileid, v.size⟩] }
        else some { s with conn := c, lister := .ended }
    | _ => none
  | .worker i result faults =>
    match s.queue[i]?, result, s.lister with
    | none, _, _ => none
    | some _, none, _ => some { s with queue := s.queue.eraseIdx i }
    | some _, some _, .stuck => none
    | some job, some r, _ => some { s with
        conn := workerCommit s.conn faults job.fileid r
        queue := s.queue.eraseIdx i }
  | .kill => some (.stopped s.tables)

/-- A run: events in any order, as long as each of them can happen. -/
def scanRun (cfg : ScanConfig) (s : ScanSys) (events : List ScanEvent) : Option ScanSys :=
  events.foldlM (scanStep cfg) s

-- ---------------------------------------------------------------------------
-- What a step can do
-- ---------------------------------------------------------------------------

section Steps

variable {cfg : ScanConfig} {s s' : ScanSys}

theorem scanStep_start {pruned : Bool} (hstep : scanStep cfg s (.start pruned) = some s') :
    s.running = false ∧
      s' = if pruned then .started s.tables.deleteUnscannedFiles else .stopped s.tables := by
  simp only [scanStep] at hstep
  split at hstep
  · cases hstep
  · rename_i hstopped
    refine ⟨Bool.eq_false_iff.2 hstopped, ?_⟩
    cases pruned with
    | true =>
      cases hstep
      rfl
    | false =>
      cases hstep
      rfl

theorem scanStep_describe {v : ListedFile} {ok : Bool}
    (hstep : scanStep cfg s (.describe v ok) = some s') :
    s.running = true ∧ s.lister = .idle ∧ s' = describeFile cfg s v ok := by
  simp only [scanStep] at hstep
  split at hstep
  · rename_i hr hidle
    cases hstep
    exact ⟨hr, hidle, rfl⟩
  · cases hstep

/-- A visit finds the file up to date, or gives it the next number. -/
theorem describeFile_cases (cfg : ScanConfig) (s : ScanSys) (v : ListedFile) (ok : Bool) :
    (describeFile cfg s v ok = { s with
        batch := s.batch.enter cfg.dedupeSeq
        visited := (v.ino, v.subvol) :: s.visited } ∧
      (ok = false ∨ isUpToDate v (dbfileDescribeFile s.conn.sees v.ino v.subvol) = true)) ∨
    (describeFile cfg s v ok = { s with
        batch := (s.batch.enter cfg.dedupeSeq).next cfg.batchSize
        visited := (v.ino, v.subvol) :: s.visited
        given := s.given ++ [((s.batch.enter cfg.dedupeSeq).next cfg.batchSize).seq]
        lister := .described v (dbfileDescribeFile s.conn.sees v.ino v.subvol).id
          (isFileRenamed v (dbfileDescribeFile s.conn.sees v.ino v.subvol).filename)
          ((s.batch.enter cfg.dedupeSeq).next cfg.batchSize).seq } ∧
      ¬ (ok = false ∨ isUpToDate v (dbfileDescribeFile s.conn.sees v.ino v.subvol) = true)) := by
  unfold describeFile
  simp only
  split
  · rename_i hskip
    exact .inl ⟨rfl, hskip⟩
  · rename_i hskip
    exact .inr ⟨rfl, hskip⟩

/-- The lister leaves the tables to its transaction. Only a row that was stored is
    scheduled. -/
theorem scanStep_store {faults : Nat → Answer} {pushed : Bool}
    (hstep : scanStep cfg s (.store faults pushed) = some s') :
    ∃ v id renamed seq, s.lister = .described v id renamed seq ∧
      ∃ ret lister queue, (scanFileStore faults v id renamed seq s.conn).1 = ret ∧
        s' = { s with
          conn := (scanFileStore faults v id renamed seq s.conn).2
          lister := lister
          queue := queue } ∧
        ((ret = .renameFailed ∧ lister = .stuck ∧ queue = s.queue) ∨
          (ret = .notStored ∧ lister = .idle ∧ queue = s.queue) ∨
          ∃ fileid, ret = .stored fileid ∧ lister = (if pushed then .idle else .ended) ∧
            queue = if pushed then s.queue ++ [⟨v.path, fileid, v.size⟩] else s.queue) := by
  simp only [scanStep] at hstep
  split at hstep
  · rename_i v id renamed seq hlister
    refine ⟨v, id, renamed, seq, hlister, ?_⟩
    generalize scanFileStore faults v id renamed seq s.conn = r at hstep
    obtain ⟨ret, c⟩ := r
    cases ret with
    | renameFailed =>
      cases hstep
      exact ⟨_, _, _, rfl, rfl, .inl ⟨rfl, rfl, rfl⟩⟩
    | notStored =>
      cases hstep
      exact ⟨_, _, _, rfl, rfl, .inr (.inl ⟨rfl, rfl, rfl⟩)⟩
    | stored fileid =>
      cases pushed with
      | true =>
        cases hstep
        exact ⟨_, _, _, rfl, rfl, .inr (.inr ⟨fileid, rfl, rfl, rfl⟩)⟩
      | false =>
        cases hstep
        exact ⟨_, _, _, rfl, rfl, .inr (.inr ⟨fileid, rfl, rfl, rfl⟩)⟩
  · cases hstep

/-- After its transaction the lister has to look at a file again before it stores it. -/
theorem lister_of_scanStep_store {faults : Nat → Answer} {pushed : Bool}
    (hstep : scanStep cfg s (.store faults pushed) = some s') (v : ListedFile) (id : Nat)
    (renamed : Bool) (seq : Nat) : s'.lister ≠ .described v id renamed seq := by
  obtain ⟨_, _, _, _, -, _, _, _, -, rfl, ⟨-, rfl, -⟩ | ⟨-, rfl, -⟩ | ⟨-, -, rfl, -⟩⟩ :=
    scanStep_store hstep
  · rintro ⟨⟩
  · rintro ⟨⟩
  · simp only
    split <;> rintro ⟨⟩

/-- A worker drops its job or commits what it has. -/
theorem scanStep_worker {i : Nat} {result : Option (ScanCommit DigestBytes)}
    {faults : Nat → Answer} (hstep : scanStep cfg s (.worker i result faults) = some s') :
    ∃ job, s.queue[i]? = some job ∧
      ((result = none ∧ s' = { s with queue := s.queue.eraseIdx i }) ∨
        ∃ r, result = some r ∧ s.lister ≠ .stuck ∧ s' = { s with
          conn := workerCommit s.conn faults job.fileid r
          queue := s.queue.eraseIdx i }) := by
  simp only [scanStep] at hstep
  split at hstep
  · cases hstep
  · rename_i job hjob
    cases hstep
    exact ⟨job, hjob, .inl ⟨rfl, rfl⟩⟩
  · cases hstep
  · rename_i job r hjob hlister
    cases hstep
    exact ⟨job, hjob, .inr ⟨r, rfl, hlister, rfl⟩⟩

end Steps

end Duperemove
