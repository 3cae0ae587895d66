-- SUMMARY: `--skip-zeroes`: which blocks of a file a scan leaves out, and when these are the zeroed ones.
import Duperemove.FileScan.Exact
import Duperemove.FileScan.ZeroTest

/-!
# Skipping zeroed blocks

`process_blocks` tests the start of the buffer for every block in it. So a whole
visit of `fill_buffer` is skipped or kept by its first block, and the blocks that are
recorded depend on how the reads cut the file into visits.
-/

namespace Duperemove

variable {Digest : Type}

/-- The block of the content `c` at offset `off` has a byte that is not zero. -/
def HasData (job : ScanJob) (c : List Byte) (off : Nat) : Prop :=
  ∃ b ∈ (c.drop off).take job.blocksize, b ≠ 0

instance (job : ScanJob) (c : List Byte) (off : Nat) : Decidable (HasData job c off) :=
  inferInstanceAs (Decidable (∃ b ∈ _, _))

/-- The row of the `i`-th block of the file. -/
def nthBlockRow (job : ScanJob) (h : Xxh Digest) (c : List Byte) (i : Nat) : BlockCsum Digest :=
  ⟨i * job.blocksize, h.xxh128 ((c.drop (i * job.blocksize)).take job.blocksize)⟩

/-- The row is not the one of the partial block at the end of the file. -/
def BlockCsum.IsFull (job : ScanJob) (row : BlockCsum Digest) : Prop :=
  row.loff + job.blocksize ≤ job.filesize

instance (job : ScanJob) (row : BlockCsum Digest) : Decidable (row.IsFull job) :=
  inferInstanceAs (Decidable (_ ≤ _))

-- ---------------------------------------------------------------------------
-- The rows of a visit
-- ---------------------------------------------------------------------------

/-- The full blocks that a visit records: all that it hands on, or none. -/
def Visit.keptRows (job : ScanJob) (h : Xxh Digest) (c : List Byte) (v : Visit) :
    List (BlockCsum Digest) :=
  ((List.range' (v.off / job.blocksize) (v.readBytes job / job.blocksize)).filter
    fun _ => HasData job c v.off).map (nthBlockRow job h c)

/-- The full blocks with data among the `n` blocks from the `lo`-th on. -/
def dataRows (job : ScanJob) (h : Xxh Digest) (c : List Byte) (lo n : Nat) :
    List (BlockCsum Digest) :=
  ((List.range' lo n).filter fun i => HasData job c (i * job.blocksize)).map (nthBlockRow job h c)

/-- The whole blocks that a visit hands on are like the first of them. -/
def Visit.Uniform (job : ScanJob) (c : List Byte) (v : Visit) : Prop :=
  ∀ i < v.readBytes job / job.blocksize,
    (HasData job c (v.off + i * job.blocksize) ↔ HasData job c v.off)

section Buffer

variable {job : ScanJob} {h : Xxh Digest} {c : List Byte} {s : ScanState Digest} {buffer : Buffer}

/-- The test of the buffer is a test of the file's block at the offset of the visit. -/
theorem isBlockZeroed_read (hread : ReadInto job c s buffer)
    (hblock : job.blocksize ≤ buffer.dlLen) :
    isBlockZeroed job.blocksize (buffer.buf.drop buffer.dlOffset) = !HasData job c s.off := by
  have hroom := hread.room
  have hlen : job.blocksize ≤ buffer.buf.length := by
    rw [hread.length]
    omega
  have hfirst : buffer.buf.take job.blocksize = (c.drop s.off).take job.blocksize := by
    have hdata : (buffer.buf.drop 0).take job.blocksize =
        (c.drop (s.off + 0)).take job.blocksize := bufferBlock_eq hread.data (by omega)
    rwa [List.drop_zero, Nat.add_zero] at hdata
  have hsize : 4 ≤ job.blocksize := Nat.le_trans (by decide) job.blocksize_ge
  rw [hread.dlOffset, List.drop_zero, Bool.eq_iff_iff, isBlockZeroed_iff hsize hlen, hfirst,
    Bool.not_eq_true', decide_eq_false_iff_not]
  simp only [HasData, not_exists, not_and, Decidable.not_not, ne_eq]

theorem fullRows_read (hskip : job.options.skipZeroes = true)
    (hkeep : ∀ off, isBlockIgnored job off = false) (hread : ReadInto job c s buffer) :
    fullRows job h s.off buffer =
      ((List.range (buffer.dlLen / job.blocksize)).filter fun _ => HasData job c s.off).map
        fun i => ⟨s.off + i * job.blocksize,
          h.xxh128 ((c.drop (s.off + i * job.blocksize)).take job.blocksize)⟩ := by
  rw [fullRows, ← List.filterMap_eq_map, List.filterMap_filter]
  apply List.filterMap_congr
  intro i hi
  have hblock := job.block_le hi
  rw [isBlockHashed, hkeep, hskip, isBlockZeroed_read hread (by omega),
    bufferBlock_eq hread.data hblock]
  simp [checksumBlock]

/-- The rows of whole blocks inside the file are full, -/
theorem fullRows_isFull (hfile : s.off + buffer.dlLen ≤ job.filesize) :
    ∀ row ∈ fullRows job h s.off buffer, row.IsFull job := by
  intro row hrow
  obtain ⟨i, hi, hrow⟩ := List.mem_filterMap.1 hrow
  have hblock := job.block_le hi
  obtain ⟨-, hrow⟩ := Option.ite_none_right_eq_some.1 hrow
  obtain rfl := Option.some.inj hrow
  simp only [BlockCsum.IsFull]
  omega

/-- and the row of the rest at the end of the file is not. -/
theorem tailRow_not_isFull (heof : s.off + buffer.dlLen = job.filesize) :
    ∀ row ∈ tailRow h s.off (buffer.dlLen / job.blocksize * job.blocksize) buffer,
      ¬ row.IsFull job := by
  intro row hrow hfull
  have hlt := Nat.lt_div_mul_add (a := buffer.dlLen) job.blocksize_pos
  rw [tailRow] at hrow
  split at hrow
  · rw [List.mem_singleton.1 hrow] at hfull
    simp only [BlockCsum.IsFull] at hfull
    omega
  · cases hrow

/-- The full blocks that the consumers record of a filled buffer. -/
theorem filter_bufferRows (hblocks : job.options.doBlockHash = true)
    (hskip : job.options.skipZeroes = true) (hkeep : ∀ off, isBlockIgnored job off = false)
    (hread : ReadInto job c s buffer) (hgrid : s.off % job.blocksize = 0) :
    (bufferRows job h s.off (decide (s.off + buffer.dlLen = job.filesize)) buffer).filter
        (fun row => row.IsFull job) =
      s.visit.keptRows job h c := by
  have hcut : cutsBlocks job buffer = true := by simp [cutsBlocks, hblocks, hread.faked]
  have hall : (fullRows job h s.off buffer).filter (fun row => row.IsFull job) =
      fullRows job h s.off buffer :=
    List.filter_eq_self.2 fun row hrow => decide_eq_true (fullRows_isFull hread.inFile row hrow)
  have htail : (if decide (s.off + buffer.dlLen = job.filesize) then
      tailRow h s.off (buffer.dlLen / job.blocksize * job.blocksize) buffer else []).filter
        (fun row => row.IsFull job) = [] := by
    refine List.filter_eq_nil_iff.2 fun row hrow hfull => ?_
    split at hrow
    case isTrue heof =>
      exact tailRow_not_isFull (of_decide_eq_true heof) row hrow (of_decide_eq_true hfull)
    case isFalse => cases hrow
  have hcount : s.visit.readBytes job / job.blocksize = buffer.dlLen / job.blocksize := by
    rw [Visit.readBytes, ← hread.dlLen]
    split
    · exact Nat.mul_div_cancel _ job.blocksize_pos
    · rfl
  rw [bufferRows, if_pos hcut, List.filter_append, htail, List.append_nil, hall,
    fullRows_read hskip hkeep hread, Visit.keptRows, hcount, List.range'_eq_map_range,
    List.filter_map, List.map_map]
  refine List.map_congr_left fun i _ => ?_
  -- The visit stands on a block border.
  have hoff : (s.visit.off / job.blocksize + i) * job.blocksize = s.off + i * job.blocksize := by
    rw [Nat.add_mul, ScanState.visit, Nat.div_mul_cancel (Nat.dvd_of_mod_eq_zero hgrid)]
  rw [Function.comp_apply, nthBlockRow, hoff]

end Buffer

-- ---------------------------------------------------------------------------
-- A run that skips zeroed blocks
-- ---------------------------------------------------------------------------

/-- The visits of a run that never fast-forwards. -/
abbrev plainVisit (job : ScanJob) (k : Nat) : Visit := visit job (fun _ => false) k

theorem plainVisit_succ (job : ScanJob) (k : Nat) :
    plainVisit job (k + 1) = (plainVisit job k).next job fun _ => false :=
  visit_succ job _ k

/-- The full blocks recorded so far are those that the visits so far keep; every visit
    reads once. -/
structure KeptSoFar (job : ScanJob) (h : Xxh Digest) (c : List Byte) (s : ScanState Digest) :
    Prop where
  visit : s.visit = plainVisit job s.reads
  before : ∀ k < s.reads, (plainVisit job k).off < job.filesize
  blocks : s.hashes.blocks.filter (fun row => row.IsFull job) =
    Pieces.upTo (fun k => (plainVisit job k).keptRows job h c) s.reads

section Run

variable {job : ScanJob} {h : Xxh Digest} {c : List Byte} {fill : Filler}

theorem plainVisit_off_mono (job : ScanJob) : Monotone fun k => (plainVisit job k).off :=
  monotone_nat_of_le_succ fun k => by
    rw [plainVisit_succ, Visit.next]
    exact Nat.le_add_right _ _

/-- Another round records what the next visit keeps. -/
theorem KeptSoFar.round (hlen : c.length = job.filesize) (hreads : ReadsFile job c)
    (hfill : FillsWith fill job fun _ => false) (hblocks : job.options.doBlockHash = true)
    (hskip : job.options.skipZeroes = true) (hkeep : ∀ off, isBlockIgnored job off = false)
    {s s' : ScanState Digest} (hs : Ready job c s) (hkept : KeptSoFar job h c s)
    (hround : scanRound fill job h s = .again s' ∨
      scanRound fill job h s = .leave (.finished, s')) : KeptSoFar job h c s' := by
  have hlt : s.off < job.filesize := Nat.lt_of_le_of_lt (Nat.le_add_right _ _) hs.inFile
  have hoff : (plainVisit job s.reads).off = s.off := congrArg Visit.off hkept.visit.symm
  have hbefore : ∀ k ≤ s.reads, (plainVisit job k).off < job.filesize := by
    intro k hk
    rcases Nat.lt_or_eq_of_le hk with hk | rfl
    · exact hkept.before k hk
    · omega
  have hgrid : s.off % job.blocksize = 0 := by
    rw [← hoff]
    exact visit_plain_mod hblocks s.reads hbefore
  obtain ⟨buffer, hcall, hread⟩ := scanRound_reads (h := h) hlen hreads hfill hs rfl
  have hbuf : buffer.dlLen ≤ buffer.buf.length := by
    rw [hread.length]
    exact hread.room
  rw [hcall] at hround
  rcases consumeBuffer_spec h (s := s.withBuffer job buffer) hread.inFile hbuf with
    ⟨t, hconsume, htaken⟩ | ⟨-, -, t, hconsume, -⟩
  · have hsame : s' = t := by
      rw [hconsume] at hround
      split at hround
      · rcases hround with hround | hround <;> cases hround
        rfl
      · rcases hround with hround | hround <;> cases hround
        rfl
    subst hsame
    have hprocessed := processedBytes_read (s := s) hread.dlLen hread.faked
    have hreads' : s'.reads = s.reads + 1 := htaken.reads
    refine ⟨?_, ?_, ?_⟩
    · rw [hreads', plainVisit_succ, ← hkept.visit, ScanState.visit, htaken.off,
        htaken.buffer, hreads', Visit.next, if_neg Bool.false_ne_true, ← hprocessed, ← hread.dlLen]
      rfl
    · intro k hk
      exact hbefore k (by omega)
    · rw [htaken.blocks, List.filter_append, hreads', Pieces.upTo_succ, ← hkept.visit]
      refine congrArg₂ (· ++ ·) hkept.blocks ?_
      exact filter_bufferRows hblocks hskip hkeep hread hgrid
  · rw [hconsume] at hround
    rcases hround with hround | hround <;> cases hround

/-- A run that skips zeroed blocks records the full blocks that its visits keep. -/
theorem scanLoop_kept (hlen : c.length = job.filesize) (hreads : ReadsFile job c)
    (hfill : FillsWith fill job fun _ => false) (hblocks : job.options.doBlockHash = true)
    (hskip : job.options.skipZeroes = true) (hkeep : ∀ off, isBlockIgnored job off = false)
    (hext : job.options.onlyWholeFiles = true ∨ job.fiemap.getExtent (job.filesize - 1) ≠ none)
    (h : Xxh Digest) (buffer : ThreadBuffer) :
    ∃ s, scanLoop fill job h buffer = some (.finished, s) ∧ s.off = job.filesize ∧
      KeptSoFar job h c s := by
  obtain ⟨⟨exit, s⟩, hrun, hpost, hkept⟩ : ∃ r, scanLoop fill job h buffer = some r ∧
      RunPost job (fun _ => false) h c r ∧ (r.1 = .finished → KeptSoFar job h c r.2) := by
    refine Loop.run_total (fun s => RunInv job (fun _ => false) h c s ∧ KeptSoFar job h c s)
      (fun s => job.filesize - (s.off + s.buffer.dlLen)) ?_ _ _ ⟨?_, ?_⟩ ?_
    · rintro s ⟨hinv, hkept⟩
      obtain ⟨-, -, -, hready, -⟩ := id hinv
      have hnext : ∀ s', scanRound fill job h s = .again s' ∨
          scanRound fill job h s = .leave (.finished, s') → KeptSoFar job h c s' :=
        fun s' => hkept.round hlen hreads hfill hblocks hskip hkeep hready
      rcases scanRound_run hlen hreads hfill hinv with ⟨s', hround, hinv', hless⟩ | ⟨r, hround, hr⟩
      · exact .inl ⟨s', hround, ⟨hinv', hnext s' (.inl hround)⟩, hless⟩
      · refine .inr ⟨r, hround, hr, fun hfinished => hnext r.2 (.inr ?_)⟩
        rw [hround, ← hfinished]
    · exact ⟨0, rfl, by simp, scanStart_ready buffer, scanStart_fed buffer⟩
    · exact ⟨rfl, fun k hk => absurd hk (Nat.not_lt_zero k), rfl⟩
    · show job.filesize - (0 + 0) < job.filesize + job.blocksize + 1
      omega
  obtain ⟨rfl, hoff, -⟩ := hpost.finished hext
  exact ⟨s, hrun, hoff, hkept rfl⟩

end Run

-- ---------------------------------------------------------------------------
-- When the recorded blocks are those with data
-- ---------------------------------------------------------------------------

theorem filter_eq_filter_iff {α : Type} {p q : α → Bool} {l : List α} :
    l.filter p = l.filter q ↔ ∀ a ∈ l, p a = q a := by
  refine ⟨fun heq a ha => ?_, fun hall => List.filter_congr hall⟩
  have hmem : a ∈ l.filter p ↔ a ∈ l.filter q := by rw [heq]
  simpa [ha, ← Bool.eq_iff_iff] using hmem

section Rows

variable {job : ScanJob} {h : Xxh Digest} {c : List Byte}

theorem nthBlockRow_injective : Function.Injective (nthBlockRow job h c) := by
  intro i j heq
  exact Nat.eq_of_mul_eq_mul_right job.blocksize_pos (congrArg BlockCsum.loff heq)

theorem dataRows_add (job : ScanJob) (h : Xxh Digest) (c : List Byte) (lo m n : Nat) :
    dataRows job h c lo (m + n) = dataRows job h c lo m ++ dataRows job h c (lo + m) n := by
  rw [dataRows, ← List.range'_append_1, List.filter_append, List.map_append]
  rfl

/-- A visit keeps exactly the blocks with data when it is uniform. -/
theorem keptRows_eq_iff {v : Visit} (hgrid : v.off % job.blocksize = 0) :
    v.keptRows job h c =
        dataRows job h c (v.off / job.blocksize) (v.readBytes job / job.blocksize) ↔
      v.Uniform job c := by
  have hdiv := Nat.div_mul_cancel (Nat.dvd_of_mod_eq_zero hgrid)
  rw [Visit.keptRows, dataRows, (List.map_injective_iff.2 nthBlockRow_injective).eq_iff,
    filter_eq_filter_iff, List.range'_eq_map_range, List.forall_mem_map]
  simp only [List.mem_range, decide_eq_decide, Nat.add_mul, hdiv]
  exact forall₂_congr fun i _ => Iff.comm

/-- The rows of a visit's blocks lie in the bytes that the visit hands on. -/
theorem loff_of_visit {v : Visit} (hgrid : v.off % job.blocksize = 0) {p : Nat → Bool}
    {row : BlockCsum Digest}
    (hrow : row ∈ ((List.range' (v.off / job.blocksize) (v.readBytes job / job.blocksize)).filter
      p).map (nthBlockRow job h c)) :
    v.off ≤ row.loff ∧ row.loff < v.off + v.readBytes job := by
  have hdiv := Nat.div_mul_cancel (Nat.dvd_of_mod_eq_zero hgrid)
  obtain ⟨i, hi, rfl⟩ := List.mem_map.1 hrow
  have hrange := List.mem_range'_1.1 (List.mem_of_mem_filter hi)
  have hlo := Nat.mul_le_mul_right job.blocksize hrange.1
  have hhi := Nat.mul_le_mul_right job.blocksize
    (show i + 1 ≤ v.off / job.blocksize + v.readBytes job / job.blocksize from hrange.2)
  have hle := Nat.div_mul_le_self (v.readBytes job) job.blocksize
  have hpos := job.blocksize_pos
  rw [Nat.succ_mul, Nat.add_mul, hdiv] at hhi
  simp only [nthBlockRow]
  omega

section Visits

variable {n : Nat} (hblocks : job.options.doBlockHash = true)
variable (hbefore : ∀ k < n, (plainVisit job k).off < job.filesize)

include hblocks hbefore

theorem plainVisit_grid {k : Nat} (hk : k < n) : (plainVisit job k).off % job.blocksize = 0 :=
  visit_plain_mod hblocks k fun j hj => hbefore j (by omega)

/-- The blocks with data, cut at the visits. -/
theorem upTo_dataRows :
    Pieces.upTo (fun k => dataRows job h c ((plainVisit job k).off / job.blocksize)
        ((plainVisit job k).readBytes job / job.blocksize)) n =
      dataRows job h c 0 ((plainVisit job n).off / job.blocksize) := by
  induction n with
  | zero =>
    have hstart : (plainVisit job 0).off = 0 := rfl
    rw [hstart, Nat.zero_div]
    rfl
  | succ n ih =>
    have hgrid := plainVisit_grid hblocks hbefore (Nat.lt_succ_self n)
    have hnext : (plainVisit job (n + 1)).off / job.blocksize =
        (plainVisit job n).off / job.blocksize +
          (plainVisit job n).readBytes job / job.blocksize := by
      rw [plainVisit_succ, Visit.next, if_neg Bool.false_ne_true]
      exact Nat.add_div_of_dvd_right (Nat.dvd_of_mod_eq_zero hgrid)
    rw [Pieces.upTo_succ, ih fun k hk => hbefore k (by omega), hnext, dataRows_add, Nat.zero_add]

/-- The visits together keep exactly the blocks with data when each of them is
    uniform. -/
theorem upTo_keptRows_eq_iff :
    Pieces.upTo (fun k => (plainVisit job k).keptRows job h c) n =
        dataRows job h c 0 ((plainVisit job n).off / job.blocksize) ↔
      ∀ k < n, (plainVisit job k).Uniform job c := by
  have hnext : ∀ k, (plainVisit job (k + 1)).off =
      (plainVisit job k).off + (plainVisit job k).readBytes job := by
    intro k
    rw [plainVisit_succ, Visit.next, if_neg Bool.false_ne_true]
  rw [← upTo_dataRows hblocks hbefore,
    Pieces.upTo_eq_iff_of_key BlockCsum.loff (plainVisit_off_mono job)]
  · exact forall₂_congr fun k hk => keptRows_eq_iff (plainVisit_grid hblocks hbefore hk)
  · intro k hk row hrow
    rw [hnext]
    exact loff_of_visit (plainVisit_grid hblocks hbefore hk) hrow
  · intro k hk row hrow
    rw [hnext]
    exact loff_of_visit (plainVisit_grid hblocks hbefore hk) hrow

end Visits

/-- No inline extent is hashed, so the blocks of a map without ignored extents are
    stored. -/
theorem isInlined_noSkip (hskip : ∀ e ∈ job.fiemap.fmExtents, e.isSkipped = false) :
    isInlined job = false := by
  unfold isInlined
  cases he : job.fiemap.getExtent (job.filesize - 1) with
  | none => rfl
  | some e =>
    have hno := hskip e (Fiemap.mem_of_getExtent he)
    simp only [FiemapExtent.isSkipped, FiemapExtent.hasFlags, fiemapSkipFlags, bne_eq_false_iff_eq,
      BitVec.and_or_distrib_left, BitVec.or_eq_zero_iff] at hno ⊢
    exact hno.1

end Rows

section Scan

variable {job : ScanJob} (h : Xxh Digest) {c : List Byte} (buffer : ThreadBuffer)

/-- The blocks that a scan commits on a map without ignored extents. -/
theorem csumWholeFile_kept (hlen : c.length = job.filesize) (hreads : ReadsFile job c)
    (htiles : job.fiemap.Tiles job.filesize)
    (hnoskip : ∀ e ∈ job.fiemap.fmExtents, e.isSkipped = false)
    (hblocks : job.options.doBlockHash = true) (hskip : job.options.skipZeroes = true) :
    ∃ commit n, csumWholeFile job h buffer = some commit ∧
      (plainVisit job n).off = job.filesize ∧
      (∀ k < n, (plainVisit job k).off < job.filesize) ∧
      commit.blocks.filter (fun row => row.IsFull job) =
        Pieces.upTo (fun k => (plainVisit job k).keptRows job h c) n := by
  obtain ⟨s, hrun, hoff, hkept⟩ := scanLoop_kept hlen hreads (fillsWith_plain (.inr hnoskip))
    hblocks hskip (fun off => isAreaIgnored_noSkip hnoskip _ _)
    (.inr (htiles.getExtent_ne_none job.filesize_pos)) h buffer
  refine ⟨_, s.reads, by
    rw [csumWholeFile, csumWholeFileWith, hrun]
    simp only [Option.bind_some, commitOf, hoff, ne_eq, not_true_eq_false, if_false,
      isInlined_noSkip hnoskip, Bool.false_eq_true]
    rfl, ?_, hkept.before, hkept.blocks⟩
  rw [← hkept.visit]
  exact hoff

end Scan

/-- A map of one data extent of two blocks. -/
def twoBlocksFiemap : Fiemap where
  fmExtents := [⟨0, 65536, 8192, fiemapExtentLast⟩]
  positive := by decide
  fits := by decide
  sorted := by decide

/-- The scan of a file of two blocks that the first read gets as a whole. -/
def twoBlocksJob (c : List Byte) (hc : c.length = 8192) : ScanJob :=
  .ofContent { doBlockHash := true, skipZeroes := true } 4096 twoBlocksFiemap c 8192
    minBlocksize_le_page page_le_maxBlocksize (by rw [hc]; decide) (by rw [hc]; decide)

section TwoBlocks

variable {c : List Byte} (hc : c.length = 8192)

theorem twoBlocksJob_tiles :
    (twoBlocksJob c hc).fiemap.Tiles (twoBlocksJob c hc).filesize := by
  refine ⟨rfl, .singleton _, _, rfl, rfl, ?_⟩
  show c.length ≤ _
  rw [hc]
  decide

theorem twoBlocksJob_noSkip : ∀ e ∈ (twoBlocksJob c hc).fiemap.fmExtents, e.isSkipped = false := by
  intro e he
  rw [List.mem_singleton.1 he]
  decide

theorem twoBlocksJob_start : (plainVisit (twoBlocksJob c hc) 0).off = 0 := rfl

theorem twoBlocksJob_readBytes :
    (plainVisit (twoBlocksJob c hc) 0).readBytes (twoBlocksJob c hc) = 8192 := by
  have hfilled : (plainVisit (twoBlocksJob c hc) 0).filled (twoBlocksJob c hc) = 8192 := by
    show 0 + ((c.drop 0).take (min (readBufLen - 0) 8192)).length = 8192
    rw [List.drop_zero, List.length_take, hc]
    decide
  have hend : ¬ ((twoBlocksJob c hc).options.doBlockHash = true ∧
      (plainVisit (twoBlocksJob c hc) 0).off +
        (plainVisit (twoBlocksJob c hc) 0).filled (twoBlocksJob c hc) ≠
          (twoBlocksJob c hc).filesize) := by
    rintro ⟨-, hopen⟩
    rw [hfilled, twoBlocksJob_start, Nat.zero_add] at hopen
    exact hopen hc.symm
  rw [Visit.readBytes, if_neg hend, hfilled]

/-- The first visit takes the whole file. -/
theorem twoBlocksJob_off {k : Nat} (hk : 0 < k) :
    (twoBlocksJob c hc).filesize ≤ (plainVisit (twoBlocksJob c hc) k).off := by
  have hnext : (plainVisit (twoBlocksJob c hc) 1).off = (twoBlocksJob c hc).filesize := by
    rw [plainVisit_succ, Visit.next, if_neg Bool.false_ne_true, twoBlocksJob_readBytes,
      twoBlocksJob_start, Nat.zero_add]
    exact hc.symm
  rw [← hnext]
  exact plainVisit_off_mono (twoBlocksJob c hc) hk

end TwoBlocks

/-- A zeroed block in front of a block with data. -/
def zeroFirstContent : List Byte := List.replicate 4096 0 ++ List.replicate 4096 1

theorem zeroFirstContent_length : zeroFirstContent.length = 8192 := by
  rw [zeroFirstContent, List.length_append, List.length_replicate, List.length_replicate]

def zeroFirstJob : ScanJob := twoBlocksJob zeroFirstContent zeroFirstContent_length

end Duperemove
