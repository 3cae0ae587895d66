-- SUMMARY: A hashfile that holds the extents of scanned files: where its rows come from, and which of them end behind their file.
import Mathlib.Data.List.Nodup
import Duperemove.FileScan.ExtentRows
import Duperemove.ScanRun.Interrupt

/-!
# Stored extents

The extents of a hashfile are those that the scans of its files committed. A row has
the offset and the length of an extent of the map as fiemap returned them. The scan
only stores an extent when it arrives at its end, so a row can end behind the end of
its file only when it is that of the last extent, whose length is rounded up to whole
blocks of the filesystem.
-/

namespace Duperemove

open Transaction (Answer Conn)

-- ---------------------------------------------------------------------------
-- Rows and extents of the map
-- ---------------------------------------------------------------------------

section Rows

variable {Digest : Type} {job : ScanJob} {h : Xxh Digest} {c : List Byte}

/-- The entry is empty, or it is that of an extent which ends inside the file unless it
    has the last flag. -/
def ExtentCsum.FromMap (job : ScanJob) (r : ExtentCsum Digest) : Prop :=
  r.len ≠ 0 → ∃ e ∈ job.fiemap.fmExtents, r.IsRowOf e ∧ (e.isLast ∨ e.feEnd ≤ job.filesize)

/-- A byte of the file keeps all entries those of extents of the map. -/
theorem piece_fromMap {e : FiemapExtent} {off : Nat} (he : e ∈ job.fiemap.fmExtents)
    (hoff : off < job.filesize) (b : Byte) {acc : ExtentAcc Digest}
    (hrows : ∀ r ∈ acc.extents, r.FromMap job) :
    ∀ r ∈ (acc.piece job h e off [b]).extents, r.FromMap job := by
  have hadd : (acc.add e [b]).extents = acc.extents := by
    unfold ExtentAcc.add
    split <;> rfl
  unfold ExtentAcc.piece
  split
  case isFalse =>
    rw [hadd]
    exact hrows
  case isTrue hclose =>
    have hend : e.isLast ∨ e.feEnd ≤ job.filesize := by
      rw [closesAt, List.length_singleton] at hclose
      split at hclose
      case isTrue hlast => exact .inl hlast
      case isFalse => exact .inr (by omega)
    unfold ExtentAcc.close
    rw [hadd]
    split <;> refine List.forall_mem_append.2 ⟨hrows, List.forall_mem_singleton.2 ?_⟩
    case isTrue => exact fun hlen => absurd rfl hlen
    case isFalse => exact fun _ => ⟨e, he, ⟨rfl, rfl, rfl⟩, hend⟩

/-- So do all bytes of the file. -/
theorem extentBytes_fromMap {off : Nat} {bytes : List Byte} {acc acc' : ExtentAcc Digest}
    (hfile : off + bytes.length ≤ job.filesize)
    (hrun : extentBytes job h off bytes acc = some acc')
    (hrows : ∀ r ∈ acc.extents, r.FromMap job) : ∀ r ∈ acc'.extents, r.FromMap job := by
  induction bytes generalizing off acc with
  | nil =>
    cases hrun
    exact hrows
  | cons b bytes ih =>
    rw [List.length_cons] at hfile
    rw [extentBytes] at hrun
    split at hrun
    case h_1 => cases hrun
    case h_2 e he =>
      have hmem := Fiemap.mem_of_getExtent he
      exact ih (by omega) hrun (piece_fromMap hmem (by omega) b hrows)

/-- Every entry that a scan of an unchanged file commits is that of an extent of the
    map. -/
theorem csumWholeFile_fromMap {thread : ThreadBuffer} {commit : ScanCommit Digest}
    (hlen : c.length = job.filesize) (hreads : ReadsFile job c)
    (hcommit : csumWholeFile job h thread = some commit) :
    ∀ r ∈ commit.extents, r.FromMap job := by
  obtain ⟨⟨exit, s⟩, hrun, hpost⟩ :=
    scanLoop_spec (h := h) hlen hreads (fillsWith_fillBuffer job) thread
  rw [csumWholeFile, csumWholeFileWith, hrun, Option.bind_some] at hcommit
  rcases hpost with ⟨hexit, hoff, n, -, -, hfed⟩ | ⟨hexit, -, -, hoff⟩ <;>
    simp only at hexit hoff <;> subst hexit
  · simp only [commitOf, hoff, ne_eq, not_true_eq_false, if_false, Option.some.injEq] at hcommit
    rw [← hcommit]
    have hextents := hfed.extents
    split at hextents
    · have hnone : s.hashes.extents = [] := congrArg ExtentAcc.extents hextents
      rw [hnone]
      exact fun r hr => absurd hr List.not_mem_nil
    · refine extentBytes_fromMap ?_ hextents fun r hr => absurd hr List.not_mem_nil
      rw [hfed.length, hoff, Nat.zero_add]
  · simp only [commitOf, Nat.ne_of_lt hoff, ne_eq, not_false_eq_true, if_true] at hcommit
    cases hcommit

end Rows

-- ---------------------------------------------------------------------------
-- Scanned files
-- ---------------------------------------------------------------------------

/-- A file with its scan: the id in the hashfile, the job, the bytes of the file, which
    are still the same, and the memory that the thread had for its buffer. -/
structure ScannedFile where
  fileid : Nat
  job : ScanJob
  content : List Byte
  thread : ThreadBuffer
  unchanged : content.length = job.filesize
  reads : ReadsFile job content

/-- What the scan of the file commits. -/
def ScannedFile.commit (f : ScannedFile) (h : Xxh DigestBytes) : Option (ScanCommit DigestBytes) :=
  csumWholeFile f.job h f.thread

/-- The scan of the file and its transaction: the hashfile after it, when the file is
    committed. -/
def ScannedFile.store (f : ScannedFile) (h : Xxh DigestBytes) (faults : Nat → Answer) (t : Tables) :
    Option Tables :=
  (f.commit h).bind fun r =>
    let (ok, c) := csumCommit faults f.fileid r ⟨t, none, 0⟩
    if ok then some c.durable else none

/-- The rows that `dbfile_store_extent_hashes` inserts. -/
def extentHashRows (fileid : Nat) (extents : List (ExtentCsum DigestBytes)) : List ExtentRow :=
  (extents.filter fun e => decide (e.len ≠ 0)).map fun e =>
    ⟨e.digest.getD zeroDigest, fileid, e.loff, e.poff, e.len⟩

/-- The extents of the hashfile are those that the scans of the given files stored. -/
structure Tables.HoldsScans (h : Xxh DigestBytes) (files : List ScannedFile) (t : Tables) :
    Prop where
  ids : (files.map ScannedFile.fileid).Nodup
  extents : ∀ x, x ∈ t.extents ↔
    ∃ f ∈ files, ∃ r, f.commit h = some r ∧ x ∈ extentHashRows f.fileid r.extents

section Scans

variable {h : Xxh DigestBytes} {files : List ScannedFile} {t t' : Tables}

theorem holdsScans_nil (h : Xxh DigestBytes) (ht : t.extents = []) : t.HoldsScans h [] := by
  refine ⟨List.nodup_nil, fun x => ?_⟩
  simp [ht]

theorem foldlM_blockStatements {fileid : Nat} {blocks : List (BlockCsum DigestBytes)}
    (hrun : (blockStatements fileid blocks).foldlM (fun t stmt => stmt t) t = some t') :
    t'.extents = t.extents := by
  refine Steps.run_keeps (fun u => u.extents = t.extents) ?_ rfl hrun
  intro stmt hstmt u u' hu hinsert
  obtain ⟨b, -, rfl⟩ := List.mem_map.1 hstmt
  obtain ⟨rfl, -, -⟩ := Tables.insertBlock_eq_some hinsert
  exact hu

theorem foldlM_extentStatements {fileid : Nat} {extents : List (ExtentCsum DigestBytes)}
    (hrun : (extentStatements fileid extents).foldlM (fun t stmt => stmt t) t = some t') :
    t'.extents = t.extents ++ extentHashRows fileid extents := by
  unfold extentStatements at hrun
  unfold extentHashRows
  generalize (extents.filter fun e => decide (e.len ≠ 0)) = stored at hrun ⊢
  induction stored generalizing t with
  | nil =>
    cases hrun
    rw [List.map_nil, List.append_nil]
  | cons e stored ih =>
    obtain ⟨t₁, hinsert, hrest⟩ := Steps.run_cons.1 hrun
    obtain ⟨rfl, -, -⟩ := Tables.insertExtent_eq_some hinsert
    rw [ih hrest, List.map_cons, List.append_assoc]
    rfl

/-- The transaction of a worker that is committed adds the scan of its file to those
    that the hashfile holds. -/
theorem Tables.HoldsScans.csumCommit (hscans : t.HoldsScans h files) {f : ScannedFile}
    {r : ScanCommit DigestBytes} (hnew : f.fileid ∉ files.map ScannedFile.fileid)
    (hcommit : f.commit h = some r) {faults : Nat → Answer}
    (hok : (Duperemove.csumCommit faults f.fileid r ⟨t, none, 0⟩).1 = true) :
    (Duperemove.csumCommit faults f.fileid r ⟨t, none, 0⟩).2.durable.HoldsScans h
      (f :: files) := by
  rcases csumCommit_cases faults f.fileid r ⟨t, none, 0⟩ with ⟨hno, -⟩ | ⟨-, t₁, t₂, h₁, h₂, h₃⟩
  · rw [hok] at hno
    cases hno
  · rw [h₃]
    refine ⟨List.nodup_cons.2 ⟨hnew, hscans.ids⟩, fun x => ?_⟩
    have hextents : (t₂.updateScannedFile r.digest r.flags f.fileid).extents =
        t.extents ++ extentHashRows f.fileid r.extents := by
      rw [← foldlM_blockStatements h₁, ← foldlM_extentStatements h₂]
      rfl
    rw [hextents, List.mem_append, hscans.extents, List.exists_mem_cons_iff, or_comm]
    refine or_congr_left ⟨fun hx => ⟨r, hcommit, hx⟩, ?_⟩
    rintro ⟨r', hcommit', hx⟩
    rw [hcommit] at hcommit'
    cases hcommit'
    exact hx

theorem Tables.HoldsScans.of_perm {files' : List ScannedFile} (hperm : files.Perm files')
    (hscans : t.HoldsScans h files) : t.HoldsScans h files' := by
  refine ⟨(hperm.map _).nodup_iff.1 hscans.ids, fun x => ?_⟩
  simp only [hscans.extents, hperm.mem_iff]

/-- So the scans of more files, one after the other, add theirs, -/
theorem Tables.HoldsScans.stores {faults : ScannedFile → Nat → Answer} {more : List ScannedFile}
    (hscans : t.HoldsScans h files) (hnodup : ((more ++ files).map ScannedFile.fileid).Nodup)
    (hrun : more.foldlM (fun t f => f.store h (faults f) t) t = some t') :
    t'.HoldsScans h (more ++ files) := by
  induction more generalizing t files with
  | nil =>
    cases hrun
    exact hscans
  | cons f more ih =>
    obtain ⟨t₁, hstore, hrest⟩ := Steps.run_cons.1 hrun
    obtain ⟨r, hcommit, hstored⟩ := Option.bind_eq_some_iff.1 hstore
    obtain ⟨hok, hdurable⟩ := Option.ite_none_right_eq_some.1 hstored
    cases hdurable
    have hmiddle : (f :: more ++ files).Perm (more ++ f :: files) := List.perm_middle.symm
    have hnodup' := (hmiddle.map ScannedFile.fileid).nodup_iff.1 hnodup
    have hnew : f.fileid ∉ files.map ScannedFile.fileid := by
      have hfiles := (List.nodup_append.1 (List.map_append ▸ hnodup')).2.1
      exact (List.nodup_cons.1 hfiles).1
    exact (ih (hscans.csumCommit hnew hcommit hok) hnodup' hrest).of_perm hmiddle.symm

/-- and a hashfile without extents holds the scans of all files that it stores. -/
theorem holdsScans_of_stores {faults : ScannedFile → Nat → Answer} (ht : t.extents = [])
    (hnodup : (files.map ScannedFile.fileid).Nodup)
    (hrun : files.foldlM (fun t f => f.store h (faults f) t) t = some t') :
    t'.HoldsScans h files := by
  rw [← List.append_nil files] at hnodup ⊢
  exact (holdsScans_nil h ht).stores hnodup hrun

/-- A row of the hashfile belongs to one scanned file and one extent of its map. -/
theorem Tables.HoldsScans.origin (hscans : t.HoldsScans h files) {x : ExtentRow}
    (hx : x ∈ t.extents) :
    ∃ f ∈ files, x.fileid = f.fileid ∧ ∃ e ∈ f.job.fiemap.fmExtents,
      x.loff = e.feLogical ∧ x.len = e.feLength ∧ (e.isLast ∨ e.feEnd ≤ f.job.filesize) := by
  obtain ⟨f, hf, r, hcommit, hrow⟩ := (hscans.extents x).1 hx
  obtain ⟨entry, hentry, rfl⟩ := List.mem_map.1 hrow
  obtain ⟨hentry, hlen⟩ := List.mem_filter.1 hentry
  obtain ⟨e, he, ⟨hloff, -, hlength⟩, hend⟩ :=
    csumWholeFile_fromMap f.unchanged f.reads hcommit entry hentry (of_decide_eq_true hlen)
  exact ⟨f, hf, rfl, e, he, hloff, hlength, hend⟩

/-- Files with the same id are one. -/
theorem Tables.HoldsScans.eq_of_fileid (hscans : t.HoldsScans h files) {f f' : ScannedFile}
    (hf : f ∈ files) (hf' : f' ∈ files) (hid : f.fileid = f'.fileid) : f = f' :=
  List.inj_on_of_nodup_map hscans.ids hf hf' hid

end Scans

end Duperemove
