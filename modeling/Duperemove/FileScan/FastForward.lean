-- SUMMARY: When the fast-forward branch of `fill_buffer` commits the same as reading the file does.
import Duperemove.FileScan.Exact

/-!
# Fast-forwarding

`fill_buffer` replaces the next 8 MiB by zeros when `is_area_ignored` finds an
ignored extent in them. This file compares the run of the source with the run
that always reads. Both runs cut the file into the visits of the first one. They
commit the same exactly when they agree visit by visit: on the bytes, and, when
block rows are stored, on the rows.
-/

namespace Duperemove

variable {Digest : Type}

-- ---------------------------------------------------------------------------
-- What a run commits
-- ---------------------------------------------------------------------------

/-- The extent rows of a run whose extent consumer got `bytes`. -/
def extentRowsOf (job : ScanJob) (h : Xxh Digest) (bytes : List Byte) : List (ExtentCsum Digest) :=
  if job.options.onlyWholeFiles then []
  else ((extentBytes job h 0 bytes ⟨none, []⟩).map ExtentAcc.extents).getD []

/-- The commit of a run that fed `bytes` and stored the block rows `rows`. -/
def commitWith (job : ScanJob) (h : Xxh Digest) (bytes : List Byte)
    (rows : List (BlockCsum Digest)) : ScanCommit Digest where
  digest := h.xxh128 bytes
  blocks := if isInlined job then [] else rows
  extents := extentRowsOf job h bytes
  flags := if isInlined job then fileInlined else 0

/-- Whether the scan gives up because its extent consumer meets a byte without an
    extent. -/
def MissesExtent (job : ScanJob) : Prop :=
  job.options.onlyWholeFiles = false ∧ job.fiemap.getExtent (job.filesize - 1) = none

section Commit

variable {job : ScanJob} {c : List Byte} {ff : Nat → Bool} {fill : Filler}

theorem commitOf_finished (h : Xxh Digest) {s : ScanState Digest} {bytes : List Byte}
    {rows : List (BlockCsum Digest)} (hzero : job.options.skipZeroes = false)
    (hoff : s.off = job.filesize) (hfed : Fed job h bytes rows s) :
    commitOf job h .finished s = some (commitWith job h bytes rows) := by
  have hext : s.hashes.extents = extentRowsOf job h bytes := by
    have hacc := hfed.extents
    unfold extentRowsOf
    split at hacc
    case isTrue hwhole =>
      rw [if_pos hwhole]
      exact congrArg ExtentAcc.extents hacc
    case isFalse hwhole =>
      rw [if_neg hwhole, hacc]
      rfl
  simp only [commitOf, hoff, ne_eq, not_true_eq_false, if_false, commitWith,
    finishRunningChecksum_eq, hfed.bytes, hfed.blocks hzero, hext]

/-- A run is committed unless it misses an extent. -/
theorem RunPost.commits_iff {h : Xxh Digest} {r : ScanExit × ScanState Digest}
    (hpost : RunPost job ff h c r) :
    (commitOf job h r.1 r.2).isSome ↔ ¬ MissesExtent job := by
  obtain ⟨exit, s⟩ := r
  rcases hpost with ⟨hexit, hoff, n, hend, hbefore, hfed⟩ | ⟨hexit, hwhole, hnone, hoff⟩
  · simp only at hexit hoff hfed
    subst hexit
    constructor
    · -- A finished run consumed the last byte, so that byte has an extent.
      rintro - ⟨hwhole, hnone⟩
      have hacc := hfed.extents
      simp only [hwhole, Bool.false_eq_true, if_false] at hacc
      have hmiss : extentBytes job h 0 (seenBytes job ff c n) ⟨none, []⟩ = none := by
        rw [extentBytes_eq_none_iff]
        refine ⟨job.filesize - 1, Nat.zero_le _, ?_, hnone⟩
        have := hfed.length
        have := job.filesize_pos
        omega
      rw [hmiss] at hacc
      cases hacc
    · intro _
      simp [commitOf, hoff]
  · simp only at hexit hoff
    subst hexit
    simp [commitOf, Nat.ne_of_lt hoff, MissesExtent, hwhole, hnone]

/-- The number of visits of a run. -/
def Visits (job : ScanJob) (ff : Nat → Bool) (n : Nat) : Prop :=
  (visit job ff n).off = job.filesize ∧ ∀ k < n, (visit job ff k).off < job.filesize

/-- What `csum_whole_file` commits, in terms of the visits of its loop. -/
theorem csumWholeFileWith_eq (h : Xxh Digest) (hzero : job.options.skipZeroes = false)
    (hlen : c.length = job.filesize) (hreads : ReadsFile job c) (hfill : FillsWith fill job ff)
    (buffer : ThreadBuffer) :
    (MissesExtent job ∧ csumWholeFileWith fill job h buffer = none) ∨
    (¬ MissesExtent job ∧ ∃ n, Visits job ff n ∧
      csumWholeFileWith fill job h buffer =
        some (commitWith job h (seenBytes job ff c n) (seenRows job ff h c n))) := by
  obtain ⟨⟨exit, s⟩, hrun, hpost⟩ := scanLoop_spec (h := h) hlen hreads hfill buffer
  have hcommits := hpost.commits_iff
  simp only [csumWholeFileWith, hrun, Option.bind_some]
  rcases hpost with ⟨rfl, hoff, n, hend, hbefore, hfed⟩ | ⟨rfl, hwhole, hnone, hoff⟩
  · right
    have hcommit := commitOf_finished h hzero hoff hfed
    refine ⟨hcommits.1 ?_, n, ⟨hend, hbefore⟩, hcommit⟩
    simp only [hcommit, Option.isSome_some]
  · left
    refine ⟨⟨hwhole, hnone⟩, ?_⟩
    simp only at hoff
    simp [commitOf, Nat.ne_of_lt hoff]

end Commit

-- ---------------------------------------------------------------------------
-- Agreement, visit by visit
-- ---------------------------------------------------------------------------

/-- The offsets where the source fast-forwards. -/
def fastForwards (job : ScanJob) (off : Nat) : Bool := isFastForwarded job off readBufLen

/-- Whether a block at `off` has a row. -/
def HasRow (job : ScanJob) (off : Nat) : Prop :=
  ¬ (off + job.blocksize ≤ job.filesize ∧ isBlockIgnored job off = true)

/-- A fast-forwarded window holds zeros. -/
def SameBytes (job : ScanJob) (content : List Byte) (v : Visit) : Prop :=
  fastForwards job v.off = true →
    ∀ off, v.off ≤ off → off < v.off + readBufLen → content[off]? = some 0

/-- A fast-forwarded window has no block with a row, and neither has a piece that
    is read from an offset between the block borders of the file, on the grid of
    the file or on its own. -/
structure SameBlocks (job : ScanJob) (v : Visit) : Prop where
  skipped : fastForwards job v.off = true →
    ∀ off, v.off ≤ off → off < v.off + readBufLen → off % job.blocksize = 0 → ¬ HasRow job off
  shifted : fastForwards job v.off = false → v.off % job.blocksize ≠ 0 →
    ∀ off, v.off ≤ off → off < v.off + v.readBytes job →
      off % job.blocksize = 0 ∨ off % job.blocksize = v.off % job.blocksize → ¬ HasRow job off

/-- A visit where the source and the run that always reads agree. -/
structure Agrees (job : ScanJob) (c : List Byte) (v : Visit) : Prop where
  bytes : SameBytes job c v
  blocks : job.options.doBlockHash = true → isInlined job = false → SameBlocks job v

section Grid

variable {job : ScanJob} {h : Xxh Digest} {c : List Byte}

theorem blockRow_eq_none_iff {off : Nat} : blockRow job h c off = none ↔ ¬ HasRow job off := by
  unfold blockRow HasRow
  split <;> simp_all

theorem gridRows_eq_nil_iff {origin lo len : Nat} :
    gridRows job h c origin lo len = [] ↔
      ∀ off, lo ≤ off → off < lo + len → off % job.blocksize = origin % job.blocksize →
        ¬ HasRow job off := by
  rw [gridRows, List.filterMap_eq_nil_iff]
  constructor
  · intro hnone off hlo hhi hgrid
    have hrow := hnone off (List.mem_range'_1.2 ⟨hlo, hhi⟩)
    rw [gridRow, if_pos hgrid] at hrow
    exact blockRow_eq_none_iff.1 hrow
  · intro hnone off hmem
    obtain ⟨hlo, hhi⟩ := List.mem_range'_1.1 hmem
    rw [gridRow]
    split
    case isTrue hgrid => exact blockRow_eq_none_iff.2 (hnone off hlo hhi hgrid)
    case isFalse => rfl

/-- The rows of a grid lie on it, inside their bounds. -/
theorem mem_gridRows {origin lo len : Nat} {r : BlockCsum Digest}
    (hr : r ∈ gridRows job h c origin lo len) :
    lo ≤ r.loff ∧ r.loff < lo + len ∧ r.loff % job.blocksize = origin % job.blocksize := by
  rw [gridRows, List.mem_filterMap] at hr
  obtain ⟨off, hmem, hrow⟩ := hr
  obtain ⟨hlo, hhi⟩ := List.mem_range'_1.1 hmem
  rw [gridRow] at hrow
  split at hrow
  case isTrue hgrid =>
    rw [blockRow] at hrow
    split at hrow
    · cases hrow
    · cases hrow
      exact ⟨hlo, hhi, hgrid⟩
  case isFalse => cases hrow

/-- Two grids through different offsets have no row in common. -/
theorem gridRows_eq_iff_of_ne {origin origin' lo len : Nat}
    (hne : origin % job.blocksize ≠ origin' % job.blocksize) :
    gridRows job h c origin lo len = gridRows job h c origin' lo len ↔
      gridRows job h c origin lo len = [] ∧ gridRows job h c origin' lo len = [] := by
  constructor
  · intro heq
    have hnil : gridRows job h c origin lo len = [] := by
      apply List.eq_nil_iff_forall_not_mem.2
      intro r hr
      have hon := (mem_gridRows hr).2.2
      rw [heq] at hr
      exact hne (hon.symm.trans (mem_gridRows hr).2.2)
    exact ⟨hnil, heq ▸ hnil⟩
  · rintro ⟨hnil, hnil'⟩
    rw [hnil, hnil']

end Grid

section Agreement

variable {job : ScanJob} {c : List Byte}

/-- The number of bytes between a visit of the source and the next one. -/
def Visit.step (job : ScanJob) (v : Visit) : Nat :=
  if fastForwards job v.off then readBufLen else v.readBytes job

theorem visit_succ_off (job : ScanJob) (k : Nat) :
    (visit job (fastForwards job) (k + 1)).off =
      (visit job (fastForwards job) k).off + (visit job (fastForwards job) k).step job := by
  rw [visit_succ, Visit.next, Visit.step]
  split <;> rfl

theorem visit_off_mono (job : ScanJob) :
    Monotone fun k => (visit job (fastForwards job) k).off :=
  monotone_nat_of_le_succ fun k => by
    rw [visit_succ_off]
    exact Nat.le_add_right _ _

/-- A prefix of the file, cut at the visits of the source. -/
theorem upTo_file (job : ScanJob) (c : List Byte) (n : Nat) :
    Pieces.upTo (fun k =>
        (c.drop (visit job (fastForwards job) k).off).take
          ((visit job (fastForwards job) k).step job)) n =
      c.take (visit job (fastForwards job) n).off := by
  induction n with
  | zero => rfl
  | succ n ih => rw [Pieces.upTo_succ, ih, visit_succ_off, List.take_add]

/-- The rows of the file's grid, cut at the visits of the source. -/
theorem upTo_grid (job : ScanJob) (h : Xxh Digest) (c : List Byte) (n : Nat) :
    Pieces.upTo (fun k =>
        gridRows job h c 0 (visit job (fastForwards job) k).off
          ((visit job (fastForwards job) k).step job)) n =
      gridRows job h c 0 0 (visit job (fastForwards job) n).off := by
  induction n with
  | zero => rfl
  | succ n ih => rw [Pieces.upTo_succ, ih, visit_succ_off, gridRows_add, Nat.zero_add]

/-- A piece of the file is a run of zeros exactly when all its bytes are. -/
theorem replicate_eq_take_iff {content : List Byte} {off n : Nat} :
    List.replicate n 0 = (content.drop off).take n ↔
      ∀ o, off ≤ o → o < off + n → content[o]? = some 0 := by
  rw [List.ext_getElem?_iff]
  constructor
  · intro heq o hlo hhi
    have hat := heq (o - off)
    rw [List.getElem?_replicate_of_lt (by omega), List.getElem?_take_of_lt (by omega),
      List.getElem?_drop] at hat
    rw [hat]
    congr 1
    omega
  · intro hzero i
    by_cases hi : i < n
    · rw [List.getElem?_replicate_of_lt hi, List.getElem?_take_of_lt hi, List.getElem?_drop,
        hzero (off + i) (by omega) (by omega)]
    · rw [List.getElem?_eq_none (by rw [List.length_replicate]; omega),
        List.getElem?_eq_none (by rw [List.length_take]; omega)]

/-- The bytes of a visit are those of the file exactly when a fast-forwarded
    window holds zeros. -/
theorem bytes_eq_iff {v : Visit} :
    v.bytes job (fastForwards job) c = (c.drop v.off).take (v.step job) ↔ SameBytes job c v := by
  unfold Visit.bytes Visit.step SameBytes
  cases fastForwards job v.off with
  | true =>
    simp only [if_true, true_imp_iff]
    exact replicate_eq_take_iff
  | false => simp

/-- The rows of a visit are those of the file's grid exactly when `SameBlocks`
    holds. -/
theorem rows_eq_iff (h : Xxh Digest) {v : Visit} (hblock : job.options.doBlockHash = true) :
    v.rows job (fastForwards job) h c = gridRows job h c 0 v.off (v.step job) ↔
      SameBlocks job v := by
  unfold Visit.rows Visit.step
  cases hff : fastForwards job v.off with
  | true =>
    simp only [if_true, eq_comm (a := ([] : List (BlockCsum Digest)))]
    rw [gridRows_eq_nil_iff, Nat.zero_mod]
    constructor
    · intro hnone
      exact ⟨fun _ => hnone, fun hread => absurd hread (by simp [hff])⟩
    · exact fun hsame => hsame.skipped hff
  | false =>
    simp only [Bool.false_eq_true, if_false, hblock, if_true, blockRows_eq_gridRows]
    by_cases hon : v.off % job.blocksize = 0
    · have hgrid : v.off % job.blocksize = 0 % job.blocksize := by rw [hon, Nat.zero_mod]
      have hsame := gridRows_congr h c hgrid v.off (v.readBytes job)
      rw [hsame]
      exact ⟨fun _ => ⟨fun hfast => absurd hfast (by simp [hff]), fun _ hoff => absurd hon hoff⟩,
        fun _ => rfl⟩
    · rw [gridRows_eq_iff_of_ne (by rwa [Nat.zero_mod]), gridRows_eq_nil_iff, gridRows_eq_nil_iff,
        Nat.zero_mod]
      constructor
      · rintro ⟨hown, hfile⟩
        refine ⟨fun hfast => absurd hfast (by simp [hff]), ?_⟩
        rintro _ _ off hlo hhi (hgrid | hgrid)
        · exact hfile off hlo hhi hgrid
        · exact hown off hlo hhi hgrid
      · intro hsame
        exact ⟨fun off hlo hhi hgrid => hsame.shifted hff hon off hlo hhi (.inr hgrid),
          fun off hlo hhi hgrid => hsame.shifted hff hon off hlo hhi (.inl hgrid)⟩

/-- The whole run feeds the file exactly when every visit feeds its part of
    it. -/
theorem seenBytes_eq_iff {n : Nat} (hlen : c.length = job.filesize)
    (hn : Visits job (fastForwards job) n) :
    seenBytes job (fastForwards job) c n = c ↔
      ∀ k < n, SameBytes job c (visit job (fastForwards job) k) := by
  have hfile := upTo_file job c n
  rw [hn.1, List.take_of_length_le (by omega)] at hfile
  nth_rewrite 2 [← hfile]
  rw [seenBytes, Pieces.upTo_eq_iff_of_length]
  · simp only [bytes_eq_iff]
  · intro k hk
    have hin := visit_off_mono job (show k + 1 ≤ n from hk)
    simp only [visit_succ_off, hn.1] at hin
    rw [List.length_take, List.length_drop]
    unfold Visit.bytes
    unfold Visit.step at hin ⊢
    split
    case isTrue hff =>
      rw [if_pos hff] at hin
      rw [List.length_replicate]
      omega
    case isFalse hff =>
      rw [if_neg hff] at hin
      rw [List.length_take, List.length_drop]

/-- The whole run stores the rows of the file's grid exactly when every visit
    does. -/
theorem seenRows_eq_iff (h : Xxh Digest) {n : Nat} (hblock : job.options.doBlockHash = true)
    (hn : Visits job (fastForwards job) n) :
    seenRows job (fastForwards job) h c n = gridRows job h c 0 0 job.filesize ↔
      ∀ k < n, SameBlocks job (visit job (fastForwards job) k) := by
  rw [← hn.1, ← upTo_grid, seenRows,
    Pieces.upTo_eq_iff_of_key BlockCsum.loff (visit_off_mono job)]
  · simp only [rows_eq_iff h hblock]
  · intro k _ r hr
    simp only [visit_succ_off]
    unfold Visit.rows at hr
    unfold Visit.step
    cases hff : fastForwards job (visit job (fastForwards job) k).off with
    | true => simp [hff] at hr
    | false =>
      simp only [hff, Bool.false_eq_true, if_false, hblock, if_true] at hr ⊢
      rw [blockRows_eq_gridRows] at hr
      have := mem_gridRows hr
      omega
  · intro k _ r hr
    simp only [visit_succ_off]
    have := mem_gridRows hr
    omega

/-- What the run that always reads commits. -/
theorem csumWholeFileWith_fillFromFile (h : Xxh Digest) (hzero : job.options.skipZeroes = false)
    (hlen : c.length = job.filesize) (hreads : ReadsFile job c) (hext : ¬ MissesExtent job)
    (buffer : ThreadBuffer) :
    ∃ rows, csumWholeFileWith fillFromFile job h buffer = some (commitWith job h c rows) ∧
      (job.options.doBlockHash = true → rows = gridRows job h c 0 0 job.filesize) ∧
      (job.options.doBlockHash = false → rows = []) := by
  have hfinish : job.options.onlyWholeFiles = true ∨
      job.fiemap.getExtent (job.filesize - 1) ≠ none := by
    cases hwhole : job.options.onlyWholeFiles with
    | true => exact .inl rfl
    | false => exact .inr fun hnone => hext ⟨hwhole, hnone⟩
  obtain ⟨s, hrun, hoff, rows, hfed, hrows⟩ :=
    scanLoop_plain h hlen hreads (fillsWith_fillFromFile job) hfinish buffer
  refine ⟨rows, ?_, hrows⟩
  rw [csumWholeFileWith, hrun, Option.bind_some]
  exact commitOf_finished h hzero hoff hfed

/-- The visits of a run are those that stand inside the file. -/
theorem Visits.lt_iff {n k : Nat} (hn : Visits job (fastForwards job) n) :
    k < n ↔ (visit job (fastForwards job) k).off < job.filesize := by
  refine ⟨hn.2 k, fun hlt => ?_⟩
  rcases Nat.lt_or_ge k n with hkn | hnk
  · exact hkn
  · have := visit_off_mono job hnk
    have := hn.1
    simp only at *
    omega

/-- A run that commits, in terms of the visits of the source. -/
theorem csumWholeFile_visits (h : Xxh Digest) (hzero : job.options.skipZeroes = false)
    (hlen : c.length = job.filesize) (hreads : ReadsFile job c) (hext : ¬ MissesExtent job)
    (buffer : ThreadBuffer) :
    ∃ n, Visits job (fastForwards job) n ∧
      csumWholeFile job h buffer = some (commitWith job h
        (seenBytes job (fastForwards job) c n) (seenRows job (fastForwards job) h c n)) := by
  rcases csumWholeFileWith_eq h hzero hlen hreads (fillsWith_fillBuffer job) buffer with
    ⟨hmiss, _⟩ | ⟨_, hcommit⟩
  · exact absurd hmiss hext
  · exact hcommit

/-- When a hash without collisions cannot tell the two runs apart, they agree at
    every visit. -/
theorem agrees_of_message (hzero : job.options.skipZeroes = false)
    (hlen : c.length = job.filesize) (hreads : ReadsFile job c) (hext : ¬ MissesExtent job)
    {buffer : ThreadBuffer}
    (heq : csumWholeFile job Xxh.message buffer =
      csumWholeFileWith fillFromFile job Xxh.message buffer) {k : Nat}
    (hk : (visit job (fastForwards job) k).off < job.filesize) :
    Agrees job c (visit job (fastForwards job) k) := by
  obtain ⟨n, hn, hfast⟩ := csumWholeFile_visits Xxh.message hzero hlen hreads hext buffer
  obtain ⟨rows, hplain, hrows, -⟩ :=
    csumWholeFileWith_fillFromFile Xxh.message hzero hlen hreads hext buffer
  rw [hfast, hplain, Option.some.injEq] at heq
  refine ⟨?_, fun hblock hinline => ?_⟩
  · have hbytes : seenBytes job (fastForwards job) c n = c := congrArg ScanCommit.digest heq
    exact (seenBytes_eq_iff hlen hn).1 hbytes k (hn.lt_iff.2 hk)
  · have hblocks := congrArg ScanCommit.blocks heq
    simp only [commitWith, hinline, Bool.false_eq_true, if_false, hrows hblock] at hblocks
    exact (seenRows_eq_iff Xxh.message hblock hn).1 hblocks k (hn.lt_iff.2 hk)

/-- When the two runs agree at every visit, they commit the same. -/
theorem csumWholeFile_eq_of_agrees (h : Xxh Digest) (hzero : job.options.skipZeroes = false)
    (hlen : c.length = job.filesize) (hreads : ReadsFile job c) (hext : ¬ MissesExtent job)
    (buffer : ThreadBuffer)
    (hagree : ∀ k, (visit job (fastForwards job) k).off < job.filesize →
      Agrees job c (visit job (fastForwards job) k)) :
    csumWholeFile job h buffer = csumWholeFileWith fillFromFile job h buffer := by
  obtain ⟨n, hn, hfast⟩ := csumWholeFile_visits h hzero hlen hreads hext buffer
  obtain ⟨rows, hplain, hrows, hnorows⟩ :=
    csumWholeFileWith_fillFromFile h hzero hlen hreads hext buffer
  have hbytes : seenBytes job (fastForwards job) c n = c :=
    (seenBytes_eq_iff hlen hn).2 fun k hk => (hagree k (hn.lt_iff.1 hk)).bytes
  rw [hfast, hplain, hbytes]
  -- Only the block rows are left, and they matter only when they are stored.
  simp only [commitWith, Option.some.injEq, ScanCommit.mk.injEq, true_and, and_true]
  cases hinline : isInlined job with
  | true => rfl
  | false =>
    simp only [Bool.false_eq_true, if_false]
    cases hblock : job.options.doBlockHash with
    | true =>
      rw [hrows hblock]
      exact (seenRows_eq_iff h hblock hn).2 fun k hk =>
        (hagree k (hn.lt_iff.1 hk)).blocks hblock hinline
    | false =>
      rw [hnorows hblock]
      exact Pieces.upTo_eq_nil (fun k => by simp [Visit.rows, hblock]) n

/-- The fast-forward branch commits what reading commits, for every hash,
    exactly when the scan commits nothing at all or every visit agrees. -/
theorem csumWholeFile_eq_reading_iff (hzero : job.options.skipZeroes = false)
    (hlen : c.length = job.filesize) (hreads : ReadsFile job c) (buffer : ThreadBuffer) :
    (∀ (Digest : Type) (h : Xxh Digest),
      csumWholeFile job h buffer = csumWholeFileWith fillFromFile job h buffer) ↔
    MissesExtent job ∨
      ∀ k, (visit job (fastForwards job) k).off < job.filesize →
        Agrees job c (visit job (fastForwards job) k) := by
  by_cases hext : MissesExtent job
  · refine ⟨fun _ => .inl hext, fun _ Digest h => ?_⟩
    have hnone : ∀ {fill : Filler} {ff : Nat → Bool}, FillsWith fill job ff →
        csumWholeFileWith fill job h buffer = none := by
      intro fill ff hfill
      rcases csumWholeFileWith_eq h hzero hlen hreads hfill buffer with ⟨_, hnone⟩ | ⟨hno, _⟩
      · exact hnone
      · exact absurd hext hno
    rw [csumWholeFile, hnone (fillsWith_fillBuffer job), hnone (fillsWith_fillFromFile job)]
  · constructor
    · intro heq
      exact .inr fun k hk => agrees_of_message hzero hlen hreads hext (heq _ Xxh.message) hk
    · rintro (hmiss | hagree) Digest h
      · exact absurd hmiss hext
      · exact csumWholeFile_eq_of_agrees h hzero hlen hreads hext buffer hagree

end Agreement

-- ---------------------------------------------------------------------------
-- Two preallocated files
-- ---------------------------------------------------------------------------

/-- The map describes the content: holes and unwritten extents read as zeros. -/
structure Fiemap.Describes (m : Fiemap) (content : List Byte) : Prop where
  hole : ∀ off < content.length, (∀ e ∈ m.fmExtents, ¬ (e.feLogical ≤ off ∧ off < e.feEnd)) →
    content[off]? = some 0
  unwritten : ∀ e ∈ m.fmExtents, e.hasFlags fiemapExtentUnwritten = true →
    ∀ off < content.length, e.feLogical ≤ off → off < e.feEnd → content[off]? = some 0

/-- A map of one unwritten extent. -/
def unwrittenFiemap : Fiemap where
  fmExtents := [⟨0, 65536, 8388608, fiemapExtentUnwritten ||| fiemapExtentLast⟩]
  positive := by decide
  fits := by decide
  sorted := by decide

/-- A preallocated file of the size of the buffer that was never written. -/
def unwrittenJob : ScanJob :=
  .ofContent {} 4096 unwrittenFiemap (List.replicate 8388608 0) 8388608
    minBlocksize_le_page page_le_maxBlocksize (by rw [List.length_replicate]; decide)
    (by rw [List.length_replicate]; decide)

theorem unwrittenJob_filesize : unwrittenJob.filesize = 8388608 := List.length_replicate

theorem csumWholeFile_eq_reading_unwrittenJob :
    csumWholeFile unwrittenJob Xxh.message .fresh =
      csumWholeFileWith fillFromFile unwrittenJob Xxh.message .fresh := by
  refine (@csumWholeFile_eq_reading_iff unwrittenJob (List.replicate 8388608 0) rfl rfl
    (readsFile_ofContent (by decide)) .fresh).2 (.inr fun k hk => ⟨?_, ?_⟩) _ Xxh.message
  · intro hff off _ hoff
    have hin := (fillsWith_fillBuffer unwrittenJob).inFile _ hff
    rw [unwrittenJob_filesize] at hin
    exact List.getElem?_replicate_of_lt (by omega)
  · exact fun hblock => absurd hblock (by decide)

/-- A map of a written extent and an unwritten one. -/
def preallocatedFiemap : Fiemap where
  fmExtents :=
    [⟨0, 65536, 4096, 0⟩, ⟨4096, 69632, 8384512, fiemapExtentUnwritten ||| fiemapExtentLast⟩]
  positive := by decide
  fits := by decide
  sorted := by decide

/-- The content of a preallocated file whose first block was written. -/
def preallocatedContent : List Byte := List.replicate 4096 1 ++ List.replicate 8384512 0

theorem preallocatedContent_length : preallocatedContent.length = 8388608 := by
  rw [preallocatedContent, List.length_append, List.length_replicate, List.length_replicate]

def preallocatedJob : ScanJob :=
  .ofContent {} 4096 preallocatedFiemap preallocatedContent 8388608
    minBlocksize_le_page page_le_maxBlocksize (by rw [preallocatedContent_length]; decide)
    (by rw [preallocatedContent_length]; decide)

theorem preallocatedContent_describes : preallocatedFiemap.Describes preallocatedContent := by
  have hzero : ∀ off, 4096 ≤ off → off < 8388608 → preallocatedContent[off]? = some 0 := by
    intro off hlo hhi
    rw [preallocatedContent, List.getElem?_append_right (by rw [List.length_replicate]; exact hlo),
      List.length_replicate]
    exact List.getElem?_replicate_of_lt (by omega)
  constructor
  · intro off hoff hhole
    rw [preallocatedContent_length] at hoff
    have hfirst := hhole _ List.mem_cons_self
    simp only [FiemapExtent.feEnd] at hfirst
    exact hzero off (by omega) hoff
  · intro e he hflag off hoff hlo _
    rw [preallocatedContent_length] at hoff
    simp only [preallocatedFiemap, List.mem_cons, List.not_mem_nil, or_false] at he
    rcases he with rfl | rfl
    · exact absurd hflag (by decide)
    · exact hzero off hlo hoff

/-- The written block of a preallocated file is lost: the first window is
    fast-forwarded because of the extent behind it. -/
theorem csumWholeFile_ne_reading_preallocatedJob :
    preallocatedJob.options.skipZeroes = false ∧
      preallocatedContent.length = preallocatedJob.filesize ∧
      ReadsFile preallocatedJob preallocatedContent ∧
      preallocatedJob.fiemap.Describes preallocatedContent ∧
      csumWholeFile preallocatedJob Xxh.message .fresh ≠
        csumWholeFileWith fillFromFile preallocatedJob Xxh.message .fresh := by
  have hreads : ReadsFile preallocatedJob preallocatedContent := readsFile_ofContent (by decide)
  refine ⟨rfl, rfl, hreads, preallocatedContent_describes, fun heq => ?_⟩
  have hsize : preallocatedJob.filesize = 8388608 := preallocatedContent_length
  have hext : ¬ MissesExtent preallocatedJob := by
    rintro ⟨_, hnone⟩
    rw [hsize] at hnone
    exact absurd hnone (by decide)
  have hff : fastForwards preallocatedJob 0 = true := by
    rw [fastForwards, isFastForwarded, hsize]
    decide
  have hagree := agrees_of_message (c := preallocatedContent) rfl rfl hreads hext heq (k := 0)
    preallocatedJob.filesize_pos
  have hfirst : preallocatedContent[0]? = some 0 :=
    hagree.bytes hff 0 (Nat.le_refl _) (by decide)
  have hone : preallocatedContent[0]? = some 1 := by
    rw [preallocatedContent, List.getElem?_append_left (by rw [List.length_replicate]; decide)]
    exact List.getElem?_replicate_of_lt (by decide)
  rw [hone] at hfirst
  exact absurd hfirst (by decide)

end Duperemove
