-- SUMMARY: From the bytes on disk to the groups: after a clean scan the files with one content are one group.
import Duperemove.Dbfile.Load
import Duperemove.ScanRun.Again
import Mathlib.Data.List.Perm.Subperm

/-!
# Files with one content

A clean scan gives every visited file the digest of its content, and a load groups the rows by
digest and size. So the files with one content end up in one group, and the files of a group
have contents with one digest, which is the same content as long as the hash has no collision.

The scan is the whole of it: the lister and the workers in any order, reads that come in any
pieces, and a hashfile of earlier scans. A file with a large ignored extent is left out, since
`fill_buffer` steps over the extent and does not feed the bytes that lie there.
-/

namespace Duperemove

-- ---------------------------------------------------------------------------
-- Contents
-- ---------------------------------------------------------------------------

/-- A filesystem that stands still, with the contents of its files. -/
structure DataFs extends StillFs where
  data : Nat → Nat → List Byte
  size_eq : ∀ p a, look p = some a → a.size = (data a.ino a.subvol).length

namespace DataFs

/-- The job reads the file that is queued, in whatever pieces, and steps over nothing. -/
def Reads (fs : DataFs) (queued : FileToScan) (job : ScanJob) : Prop :=
  ∃ a, fs.look queued.path = some a ∧ job.filesize = queued.filesize ∧
    ReadsFile job (fs.data a.ino a.subvol) ∧
    (job.filesize < readBufLen ∨ ∀ e ∈ job.fiemap.fmExtents, e.isSkipped = false)

/-- The commit of a worker is that of a scan of its file. -/
def Hashes (fs : DataFs) (h : Xxh DigestBytes) (s : ScanSys) : ScanEvent → Prop
  | .worker i result _ => ∀ queued, s.queue[i]? = some queued →
      ∃ job thread, fs.Reads queued job ∧ csumWholeFile job h thread = result
  | _ => True

/-- The rows that are up to date have the digest of the content. -/
def Faithful (fs : DataFs) (h : Xxh DigestBytes) (t : Tables) : Prop :=
  ∀ f ∈ t.files, fs.UpToDate f → ∀ digest, f.digest = some digest →
    digest = h.xxh128 (fs.data f.ino f.subvol)

end DataFs

/-- A scan in which no call fails and every worker scans its file. -/
def CleanRun (cfg : ScanConfig) (fs : DataFs) (h : Xxh DigestBytes) (s : ScanSys) :
    List ScanEvent → Prop
  | [] => True
  | event :: events => CleanStep fs.toStillFs event ∧ fs.Hashes h s event ∧
      ∀ s', scanStep cfg s event = some s' → CleanRun cfg fs h s' events

theorem CleanRun.cons {cfg : ScanConfig} {fs : DataFs} {h : Xxh DigestBytes} {s s₁ : ScanSys}
    {event : ScanEvent} {events : List ScanEvent} (hstep : scanStep cfg s event = some s₁)
    (hclean : CleanStep fs.toStillFs event) (hhash : fs.Hashes h s event)
    (hrest : CleanRun cfg fs h s₁ events) : CleanRun cfg fs h s (event :: events) := by
  refine ⟨hclean, hhash, fun s' hs' => ?_⟩
  rw [hstep] at hs'
  cases hs'
  exact hrest

section Digest

variable {job : ScanJob} {h : Xxh DigestBytes} {thread : ThreadBuffer} {c : List Byte}
  {r : ScanCommit DigestBytes}

/-- The digest of a file that is read to its end. -/
theorem digest_of_csumWholeFile (hlen : c.length = job.filesize) (hreads : ReadsFile job c)
    (hplain : job.filesize < readBufLen ∨ ∀ e ∈ job.fiemap.fmExtents, e.isSkipped = false)
    (hscan : csumWholeFile job h thread = some r) : r.digest = h.xxh128 c := by
  obtain ⟨⟨exit, s⟩, hrun, hpost⟩ :=
    scanLoop_spec (h := h) hlen hreads (fillsWith_plain hplain) thread
  rw [csumWholeFile, csumWholeFileWith, hrun, Option.bind_some] at hscan
  rcases hpost with ⟨rfl, hoff, n, hend, -, hfed⟩ | ⟨rfl, -, -, hoff⟩
  · have hoff : s.off = job.filesize := hoff
    simp only [commitOf, hoff, ne_eq, not_true_eq_false, if_false] at hscan
    cases hscan
    rw [finishRunningChecksum_eq, show s.fileCsum.bytes = _ from hfed.bytes, seenBytes_plain, hend,
      List.take_of_length_le (Nat.le_of_eq hlen)]
  · simp only [commitOf, if_pos (Nat.ne_of_lt hoff)] at hscan
    cases hscan

end Digest

-- ---------------------------------------------------------------------------
-- Runs
-- ---------------------------------------------------------------------------

namespace ScanSys

variable {cfg : ScanConfig} {fs : DataFs} {h : Xxh DigestBytes} {s s' : ScanSys}
  {event : ScanEvent}

/-- A step of a clean scan keeps the digests right. -/
theorem Steady.faithful (hs : s.Steady fs.toStillFs) (hinv : s.Inv)
    (hclean : CleanStep fs.toStillFs event) (hhash : fs.Hashes h s event)
    (hstep : scanStep cfg s event = some s') (hf : fs.Faithful h s.tables) :
    fs.Faithful h s'.tables := by
  obtain ⟨hc, hn⟩ := hinv.tables_sound
  cases hclean with
  | @describe v hv =>
    obtain ⟨-, -, rfl⟩ := scanStep_describe hstep
    rcases describeFile_cases cfg s v true with ⟨heq, -⟩ | ⟨heq, -⟩ <;> rwa [heq]
  | store hfaults =>
    obtain rfl := funext hfaults
    obtain ⟨v, id, renamed, seq, u, calls, -, -, rfl, hmem⟩ := hs.store_spec hc hstep
    intro f hin hup digest hdigest
    rcases (hmem f).1 hin with ⟨hin, -⟩ | rfl
    · exact hf f hin hup digest hdigest
    · cases hdigest
  | @worker i job x thread r faults hscan hfaults =>
    obtain rfl := funext hfaults
    obtain ⟨queued, conn, hqueued, -, rfl, hmem⟩ := hs.worker_spec hn hscan hstep
    intro f hin hup digest hdigest
    obtain ⟨g, hg, rfl⟩ := (hmem f).1 hin
    have hup := StillFs.upToDate_commitRow.1 hup
    obtain ⟨hino, hsubvol⟩ := @ScanCommit.commitRow_inode r queued.fileid g
    rw [hino, hsubvol]
    rw [ScanCommit.commitRow] at hdigest
    split at hdigest
    · next hid =>
      obtain rfl : r.digest = digest := Option.some.inj hdigest
      obtain ⟨job, thread, ⟨a, hlook, hsize, hreads, hplain⟩, hscan⟩ := hhash queued hqueued
      obtain ⟨f, hfin, hfid, -, hname, hfsize⟩ := hs.jobs queued (List.mem_of_getElem? hqueued)
      obtain rfl : g = f := List.inj_on_of_nodup_map hc.id_unique hg hfin (hid.trans hfid.symm)
      rw [← hname, show fs.look g.filename = _ from hup] at hlook
      cases hlook
      have hlen := fs.size_eq _ _ hup
      exact digest_of_csumWholeFile (hlen.symm.trans (hfsize.trans hsize.symm)) hreads hplain hscan
    · exact hf g hg hup digest hdigest

/-- So does a whole scan. -/
theorem Steady.run_faithful (hs : s.Steady fs.toStillFs) (hinv : s.Inv) {events : List ScanEvent}
    (hclean : CleanRun cfg fs h s events) (hrun : scanRun cfg s events = some s')
    (hf : fs.Faithful h s.tables) : s'.Steady fs.toStillFs ∧ s'.Inv ∧ fs.Faithful h s'.tables := by
  induction events generalizing s with
  | nil =>
    cases hrun
    exact ⟨hs, hinv, hf⟩
  | cons event events ih =>
    obtain ⟨hstep, hhash, hrest⟩ := hclean
    obtain ⟨s₁, hs₁, hrun⟩ := Steps.run_cons.1 hrun
    exact ih (hs.step hinv hstep hs₁) (hinv.scanStep hs₁) (hrest s₁ hs₁) hrun
      (hs.faithful hinv hstep hhash hs₁ hf)

end ScanSys

-- ---------------------------------------------------------------------------
-- Groups
-- ---------------------------------------------------------------------------

/-- A load may put the file into a group. -/
structure FileRow.Candidate (seq : Nat) (f : FileRow) : Prop where
  dedupable : f.isDedupable = true
  seq_le : f.dedupeSeq ≤ seq

def SameGroup (res : ResultsTree) (f g : FileRow) : Prop :=
  ∃ digest size group, res.findDupeExtents digest size = some group ∧
    f.member ∈ group.members ∧ g.member ∈ group.members

section Groups

variable {t : Tables} {seq : Nat} {digest : DigestBytes} {size : Nat} {f g : FileRow}

theorem mem_sharedFiles (hf : f ∈ t.files) (hcand : f.Candidate seq) :
    f ∈ sharedFiles t seq digest size ↔ f.digest = some digest ∧ f.size = size := by
  simp only [sharedFiles, List.mem_filter, decide_eq_true_eq, hf, hcand.dedupable, hcand.seq_le,
    true_and, and_true]

theorem member_mem_sharedFiles (hc : t.Constraints) (hf : f ∈ t.files) :
    f.member ∈ (sharedFiles t seq digest size).map FileRow.member ↔
      f ∈ sharedFiles t seq digest size := by
  constructor
  · intro hin
    obtain ⟨f', hf', heq⟩ := List.mem_map.1 hin
    have hid : f'.id = f.id := congrArg Member.fileid heq
    rwa [← List.inj_on_of_nodup_map hc.id_unique (List.mem_filter.1 hf').1 hf hid]
  · exact List.mem_map_of_mem

/-- A load puts two files into one group exactly when they have one digest and one size, when
    one of them is of the current batch. -/
theorem sameGroup_iff {res : ResultsTree} (hc : t.Constraints)
    (hexact : ∀ digest size, IsExactGroup (res.findDupeExtents digest size) digest size
      ((sharedFiles t seq digest size).map FileRow.member)
      (∃ f ∈ sharedFiles t seq digest size, f.dedupeSeq = seq))
    (hf : f ∈ t.files) (hg : g ∈ t.files) (hne : f ≠ g) (hcandf : f.Candidate seq)
    (hcandg : g.Candidate seq) (hcurrent : f.dedupeSeq = seq) (hdigest : f.digest = some digest) :
    SameGroup res f g ↔ g.digest = some digest ∧ g.size = f.size := by
  constructor
  · rintro ⟨digest', size, group, hgroup, hfm, hgm⟩
    have hperm := (hexact digest' size).members_perm group hgroup
    rw [hperm.mem_iff, member_mem_sharedFiles hc hf, mem_sharedFiles hf hcandf] at hfm
    rw [hperm.mem_iff, member_mem_sharedFiles hc hg, mem_sharedFiles hg hcandg] at hgm
    obtain rfl : digest = digest' := Option.some.inj (hdigest.symm.trans hfm.1)
    exact ⟨hgm.1, hgm.2.trans hfm.2.symm⟩
  · rintro ⟨hdigest', hsize⟩
    have hfs : f ∈ sharedFiles t seq digest f.size := (mem_sharedFiles hf hcandf).2 ⟨hdigest, rfl⟩
    have hgs : g ∈ sharedFiles t seq digest f.size :=
      (mem_sharedFiles hg hcandg).2 ⟨hdigest', hsize⟩
    have htwo : 2 ≤ ((sharedFiles t seq digest f.size).map FileRow.member).length := by
      have hsub : [f, g] ⊆ sharedFiles t seq digest f.size :=
        List.cons_subset.2 ⟨hfs, List.cons_subset.2 ⟨hgs, List.nil_subset _⟩⟩
      have hnodup : [f, g].Nodup :=
        List.nodup_cons.2 ⟨fun hin => hne (List.mem_singleton.1 hin), List.nodup_singleton g⟩
      rw [List.length_map]
      exact (List.subperm_of_subset hnodup hsub).length_le
    obtain ⟨group, hgroup⟩ :=
      Option.isSome_iff_exists.1 ((hexact digest f.size).loaded_iff.2 ⟨htwo, f, hfs, hcurrent⟩)
    have hperm := (hexact digest f.size).members_perm group hgroup
    exact ⟨digest, f.size, group, hgroup, hperm.mem_iff.2 (List.mem_map_of_mem hfs),
      hperm.mem_iff.2 (List.mem_map_of_mem hgs)⟩

end Groups

/-- From the bytes to the groups. After a clean scan every visited file has a row that is up to
    date, and the load of a batch puts two such files into one group exactly when their contents
    have one digest and one length. -/
theorem scanRun_identical {cfg : ScanConfig} {fs : DataFs} {h : Xxh DigestBytes} {t : Tables}
    {s : ScanSys} {events : List ScanEvent} (hc : t.Constraints)
    (hplace : ∀ f ∈ t.deleteUnscannedFiles.files, fs.InPlace f)
    (hfaithful : fs.Faithful h t.deleteUnscannedFiles)
    (hclean : CleanRun cfg fs h (.started t.deleteUnscannedFiles) events)
    (hrun : scanRun cfg (.started t.deleteUnscannedFiles) events = some s)
    (hidle : s.lister = .idle) (hqueue : s.queue = []) :
    fs.Faithful h s.tables ∧
    (∀ x ∈ s.visited, ∃ f ∈ s.tables.files, (f.ino, f.subvol) = x ∧ fs.UpToDate f) ∧
    ∀ (seq : Nat) (reg : Registry) (rows : List FileRow),
      rows.Perm (getDuplicateFiles s.tables seq) →
      ∃ l, dbfileLoadSameFiles rows ⟨reg, .empty⟩ = some l ∧
        ∀ f ∈ s.tables.files, ∀ g ∈ s.tables.files, fs.UpToDate f → fs.UpToDate g → f ≠ g →
          f.Candidate seq → g.Candidate seq → f.dedupeSeq = seq →
          (SameGroup l.res f g ↔
            h.xxh128 (fs.data f.ino f.subvol) = h.xxh128 (fs.data g.ino g.subvol) ∧
              (fs.data f.ino f.subvol).length = (fs.data g.ino g.subvol).length) := by
  obtain ⟨hs, hinv, hf⟩ := (ScanSys.steady_started hplace).run_faithful (ScanSys.inv_started hc)
    hclean hrun hfaithful
  refine ⟨hf, fun x hx => hs.hasFile hidle hx, fun seq reg rows hrows => ?_⟩
  have hcons := hinv.tables_sound.1
  obtain ⟨l, hload, -, hexact⟩ := dbfileLoadSameFiles_exact ⟨s.tables, hcons⟩ seq reg hrows
  refine ⟨l, hload, fun f hfin g hgin hupf hupg hne hcandf hcandg hcurrent => ?_⟩
  have hdigests : ∀ f ∈ s.tables.files, fs.UpToDate f →
      f.digest = some (h.xxh128 (fs.data f.ino f.subvol)) := fun f hfin hup => by
    obtain ⟨digest, hdigest⟩ := Option.isSome_iff_exists.1 (hs.scanned hqueue f hfin)
    rw [hdigest, hf f hfin hup digest hdigest]
  have hsize : ∀ f, fs.UpToDate f → f.size = (fs.data f.ino f.subvol).length :=
    fun f hup => fs.size_eq _ _ hup
  rw [sameGroup_iff hcons hexact hfin hgin hne hcandf hcandg hcurrent (hdigests f hfin hupf),
    hdigests g hgin hupg, Option.some.injEq, hsize f hupf, hsize g hupg]
  exact and_congr eq_comm eq_comm

/-- Two files with the content of the sample job. -/
def twinsLook (path : String) : Option PathFacts :=
  if path = "/a" then some ⟨1, 0, 5000, 1⟩ else if path = "/b" then some ⟨2, 0, 5000, 1⟩ else none

theorem twinsLook_alike (p q : String) (a b : PathFacts) (ha : twinsLook p = some a)
    (hb : twinsLook q = some b) (hinode : a.ino = b.ino ∧ a.subvol = b.subvol) : a = b := by
  simp only [twinsLook] at ha hb
  grind

def twinsFs : DataFs where
  look := twinsLook
  alike := twinsLook_alike
  data := fun _ _ => List.replicate 5000 7
  size_eq := by
    intro p a ha
    rw [List.length_replicate]
    simp only [twinsLook] at ha
    split at ha
    · cases ha
      rfl
    · split at ha <;> cases ha
      rfl

def twinsVisit (path : String) (ino : Nat) : ListedFile where
  path
  ino
  subvol := 0
  size := 5000
  mtime := 1
  gone := fun path => (twinsLook path).isNone
  size_pos := by decide

def twinsEvents (r : ScanCommit DigestBytes) : List ScanEvent :=
  [.describe (twinsVisit "/a" 1) true, .store (fun _ => .done) true,
    .describe (twinsVisit "/b" 2) true, .store (fun _ => .done) true,
    .worker 1 (some r) fun _ => .done, .worker 0 (some r) fun _ => .done]

theorem twins_reads {queued : FileToScan}
    (hpath : queued.path = "/a" ∨ queued.path = "/b") (hsize : queued.filesize = 5000) :
    twinsFs.Reads queued sampleJob := by
  have hskip : ∀ e ∈ sampleJob.fiemap.fmExtents, e.isSkipped = false := by decide
  have hreads : ReadsFile sampleJob (List.replicate 5000 7) := readsFile_ofContent (by decide)
  rcases hpath with hpath | hpath
  · exact ⟨⟨1, 0, 5000, 1⟩, by rw [hpath]; rfl, sampleJob_filesize.trans hsize.symm, hreads,
      .inr hskip⟩
  · exact ⟨⟨2, 0, 5000, 1⟩, by rw [hpath]; rfl, sampleJob_filesize.trans hsize.symm, hreads,
      .inr hskip⟩

theorem twins_clean {r : ScanCommit DigestBytes}
    (hr : csumWholeFile sampleJob .zero .fresh = some r) :
    CleanRun movedConfig twinsFs .zero (.started (Tables.deleteUnscannedFiles ⟨[], [], []⟩))
      (twinsEvents r) := by
  have hlists : ∀ path ino, twinsLook path = some ⟨ino, 0, 5000, 1⟩ → path ≠ "" →
      twinsFs.Lists (twinsVisit path ino) :=
    fun path ino hlook hne => ⟨hne, hlook, fun _ => rfl⟩
  have hscans : ∀ queued : FileToScan, queued = ⟨"/a", 1, 5000⟩ ∨ queued = ⟨"/b", 2, 5000⟩ →
      ∃ job thread, twinsFs.Reads queued job ∧ csumWholeFile job .zero thread = some r := by
    rintro queued (rfl | rfl)
    · exact ⟨sampleJob, .fresh, twins_reads (.inl rfl) rfl, hr⟩
    · exact ⟨sampleJob, .fresh, twins_reads (.inr rfl) rfl, hr⟩
  refine .cons rfl (.describe (hlists _ _ rfl (by decide))) trivial ?_
  refine .cons rfl (.store fun _ => rfl) trivial ?_
  refine .cons rfl (.describe (hlists _ _ rfl (by decide))) trivial ?_
  refine .cons rfl (.store fun _ => rfl) trivial ?_
  refine .cons rfl (.worker hr fun _ => rfl) (fun queued hqueued => hscans queued (.inr ?_)) ?_
  · exact (Option.some.inj hqueued).symm
  refine .cons rfl (.worker hr fun _ => rfl) (fun queued hqueued => hscans queued (.inl ?_)) trivial
  exact (Option.some.inj hqueued).symm

/-- The two files are up to date behind a scan of an empty hashfile. -/
theorem scanRun_identical_twins : ∃ r s,
    scanRun movedConfig (.started (Tables.deleteUnscannedFiles ⟨[], [], []⟩)) (twinsEvents r) =
      some s ∧
    twinsFs.Faithful .zero s.tables ∧
    (∀ x ∈ s.visited, ∃ f ∈ s.tables.files, (f.ino, f.subvol) = x ∧ twinsFs.UpToDate f) ∧
    ∀ (seq : Nat) (reg : Registry) (rows : List FileRow),
      rows.Perm (getDuplicateFiles s.tables seq) →
      ∃ l, dbfileLoadSameFiles rows ⟨reg, .empty⟩ = some l ∧
        ∀ f ∈ s.tables.files, ∀ g ∈ s.tables.files, twinsFs.UpToDate f → twinsFs.UpToDate g →
          f ≠ g → f.Candidate seq → g.Candidate seq → f.dedupeSeq = seq →
          (SameGroup l.res f g ↔
            Xxh.zero.xxh128 (twinsFs.data f.ino f.subvol) =
                Xxh.zero.xxh128 (twinsFs.data g.ino g.subvol) ∧
              (twinsFs.data f.ino f.subvol).length = (twinsFs.data g.ino g.subvol).length) := by
  obtain ⟨r, hr⟩ := Option.isSome_iff_exists.1 csumWholeFile_sampleJob_zero
  have hc : (⟨[], [], []⟩ : Tables).Constraints := by constructor <;> simp
  exact ⟨r, _, rfl, scanRun_identical hc (fun f hf => by cases hf) (fun f hf => by cases hf)
    (twins_clean hr) rfl rfl rfl⟩

end Duperemove
