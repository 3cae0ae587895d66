-- SUMMARY: The scan loop under any behaviour of the kernel: it ends, its assertions hold, and its rows are in order.
import Duperemove.FileScan.Blocks
import Duperemove.FileScan.Extents

/-!
# Any reads

Nothing is assumed of the answers of `pread` here: a call may fail, return
nothing, return less than it was asked for, or return bytes behind the size that
was `stat`ed. What remains true is what the loop itself takes care of. Its
offsets grow from round to round, so each consumer gets every offset once, and
the rows come out in order. `AnyInv` is the invariant, `scanRound_any` takes it
over one round, and `scanLoop_any` over the run.
-/

namespace Duperemove

variable {Digest : Type}

/-! ## Extent rows -/

/-- The offset at which an extent is stored. -/
def ScanJob.closing (job : ScanJob) (e : FiemapExtent) : Nat :=
  if e.isLast then job.filesize else e.feEnd

/-- The extent rows when the consumer stands at `off`: in order, each one of an extent
    that was looked up and closed before. Skipped extents have no length. -/
structure StoredRows (job : ScanJob) (off : Nat) (rows : List (ExtentCsum Digest)) : Prop where
  sorted : (rows.filter fun r => r.len ≠ 0).Pairwise fun a b => a.loff < b.loff
  passed : ∀ r ∈ rows, r.len ≠ 0 → ∃ e o, job.fiemap.getExtent o = some e ∧ o < off ∧
    r.loff = e.feLogical ∧ job.closing e ≤ off

section Extents

variable {job : ScanJob} {h : Xxh Digest} {off : Nat} {rows : List (ExtentCsum Digest)}

theorem storedRows_nil (job : ScanJob) (off : Nat) :
    StoredRows job off ([] : List (ExtentCsum Digest)) :=
  ⟨List.Pairwise.nil, by simp⟩

theorem StoredRows.mono (hrows : StoredRows job off rows) {off' : Nat} (hle : off ≤ off') :
    StoredRows job off' rows := by
  refine ⟨hrows.sorted, fun r hr hlen => ?_⟩
  obtain ⟨e, o, he, ho, hloff, hclosed⟩ := hrows.passed r hr hlen
  exact ⟨e, o, he, by omega, hloff, by omega⟩

/-- An extent that is closed now lies behind all that were closed before. -/
theorem StoredRows.loff_lt (hrows : StoredRows job off rows) {e : FiemapExtent}
    (he : job.fiemap.getExtent off = some e) (hopen : off < job.closing e)
    {r : ExtentCsum Digest} (hr : r ∈ rows) (hlen : r.len ≠ 0) : r.loff < e.feLogical := by
  obtain ⟨e', o, he', ho, hloff, hclosed⟩ := hrows.passed r hr hlen
  rw [hloff]
  rcases Fiemap.getExtent_mono he' (Nat.le_of_lt ho) he with rfl | hbehind
  · omega
  · have hpos := job.fiemap.positive e' (Fiemap.mem_of_getExtent he')
    unfold FiemapExtent.feEnd at hbehind
    omega

theorem StoredRows.store {w : ExtentWalk Digest} {o off : Nat}
    (hrows : StoredRows job o w.extents) {e : FiemapExtent}
    (he : job.fiemap.getExtent o = some e) (hlt : o < off) (hclose : closesAt job e off) :
    StoredRows job off (storeExtent h e w).extents := by
  have hclosing : job.closing e = off := hclose.symm
  have hlater := hrows.mono (Nat.le_of_lt hlt)
  unfold storeExtent
  split
  · constructor
    · rw [List.filter_append]
      simpa using hlater.sorted
    · intro r hr hlen
      rcases List.mem_append.1 hr with hr | hr
      · exact hlater.passed r hr hlen
      · rw [List.mem_singleton] at hr
        exact absurd (congrArg ExtentCsum.len hr) hlen
  · constructor
    · rw [List.filter_append, List.pairwise_append]
      refine ⟨hlater.sorted, ?_, ?_⟩
      · exact (List.pairwise_singleton _ _).filter _
      · intro a ha b hb
        obtain ⟨ha, hlen⟩ := List.mem_filter.1 ha
        rw [List.mem_singleton.1 (List.mem_of_mem_filter hb)]
        exact hrows.loff_lt he (by omega) ha (of_decide_eq_true hlen)
    · intro r hr hlen
      rcases List.mem_append.1 hr with hr | hr
      · exact hlater.passed r hr hlen
      · rw [List.mem_singleton.1 hr]
        exact ⟨e, o, he, hlt, rfl, Nat.le_of_eq hclosing⟩

/-- The walk over a chunk, wherever the chunk ends. -/
structure WalkAny (job : ScanJob) (off bytes : Nat) (w : ExtentWalk Digest) : Prop where
  fileOff : w.fileOff = off + w.bufOff
  bufOff : w.bufOff ≤ bytes
  rows : StoredRows job w.fileOff w.extents

/-- A round of `process_extents` keeps its assertion, and goes on behind the piece it
    added. -/
theorem extentRound_any {bytes : Nat} {buf : List Byte} (hbits : off + bytes < 2 ^ 64)
    {w : ExtentWalk Digest} (hw : WalkAny job off bytes w) :
    (∃ w', extentRound job h off bytes buf w = .again w' ∧ WalkAny job off bytes w' ∧
      bytes - w'.bufOff < bytes - w.bufOff) ∨
    ∃ r, extentRound job h off bytes buf w = .leave r ∧ r.1 ≠ .assertFailed ∧
      (r.1 = .done → StoredRows job (off + bytes) r.2.extents) := by
  have hoff := hw.fileOff
  have hle := hw.bufOff
  by_cases hlt : w.fileOff < off + bytes
  · cases he : job.fiemap.getExtent w.fileOff with
    | none =>
      right
      simp only [extentRound, hlt, if_true, he]
      exact ⟨_, rfl, by simp, fun hdone => by cases hdone⟩
    | some e =>
      left
      have hend : w.fileOff < e.feEnd := Fiemap.lt_feEnd_of_getExtent he
      have hfits := job.fiemap.fits e (Fiemap.mem_of_getExtent he)
      obtain ⟨toAdd, htoAdd, hpos, hchunk⟩ : ∃ n,
          (if e.feEnd > off + bytes then bytes - w.bufOff else e.feEnd - w.fileOff) = n ∧
            0 < n ∧ w.bufOff + n ≤ bytes := by
        refine ⟨_, rfl, ?_⟩
        split <;> omega
      have hassert : w.fileOff + toAdd ≤ off + bytes := by omega
      simp only [extentRound, hlt, if_true, he, htoAdd, hassert]
      simp only [wrap_dummyOf_iff hfits (show w.fileOff + toAdd < 2 ^ 64 by omega)]
      split
      · rename_i hclose
        refine ⟨_, rfl, ⟨?_, ?_, ?_⟩, ?_⟩
        · simp only [storeExtent_fileOff, storeExtent_bufOff]
          omega
        · simpa only [storeExtent_bufOff] using hchunk
        · rw [storeExtent_fileOff]
          refine StoredRows.store (o := w.fileOff) ?_ he ?_ hclose
          · exact hw.rows
          · exact Nat.lt_add_of_pos_right hpos
        · simp only [storeExtent_bufOff]
          omega
      · refine ⟨_, rfl, ⟨by simp only; omega, hchunk, ?_⟩, by simp only; omega⟩
        exact hw.rows.mono (Nat.le_add_right _ _)
  · right
    simp only [extentRound, hlt, if_false]
    refine ⟨_, rfl, by simp, fun _ => ?_⟩
    have hall : w.fileOff = off + bytes := by omega
    rw [← hall]
    exact hw.rows

/-- `process_extents` ends, its assertion holds, and the rows stay in order. -/
theorem processExtents_any (h : Xxh Digest) {s : ScanState Digest} {bytes : Nat}
    (hbits : s.off + bytes < 2 ^ 64) (hrows : StoredRows job s.off s.hashes.extents) :
    ∃ r, processExtents job h s bytes = some r ∧ r.1 ≠ .assertFailed ∧
      (r.1 = .done → StoredRows job (s.off + bytes) r.2.extents) := by
  refine Loop.run_total (WalkAny job s.off bytes) (fun w => bytes - w.bufOff) ?_ (bytes + 1) _
    ⟨by simp, Nat.zero_le _, hrows⟩ (by simp)
  intro w hw
  exact extentRound_any hbits hw

end Extents

/-! ## Block rows -/

/-- The block rows when the loop stands at `off`. -/
structure BlocksUpTo (off : Nat) (rows : List (BlockCsum Digest)) : Prop where
  sorted : rows.Pairwise fun a b => a.loff < b.loff
  below : ∀ r ∈ rows, r.loff < off

section Blocks

variable {job : ScanJob} {h : Xxh Digest}

theorem mem_fullRows {off : Nat} {buffer : Buffer} {r : BlockCsum Digest}
    (hr : r ∈ fullRows job h off buffer) :
    off ≤ r.loff ∧ r.loff < off + buffer.dlLen / job.blocksize * job.blocksize := by
  obtain ⟨i, hi, hrow⟩ := List.mem_filterMap.1 hr
  rw [List.mem_range] at hi
  have hblock : (i + 1) * job.blocksize ≤ buffer.dlLen / job.blocksize * job.blocksize :=
    Nat.mul_le_mul_right _ hi
  rw [Nat.succ_mul] at hblock
  have hpos := job.blocksize_pos
  split at hrow
  · cases hrow
    simp only
    omega
  · cases hrow

theorem fullRows_sorted (job : ScanJob) (h : Xxh Digest) (off : Nat) (buffer : Buffer) :
    (fullRows job h off buffer).Pairwise fun a b => a.loff < b.loff := by
  refine List.Pairwise.filterMap _ ?_ List.pairwise_lt_range
  intro i j hlt r hr r' hr'
  have hmul := Nat.mul_lt_mul_of_pos_right hlt job.blocksize_pos
  split at hr
  · split at hr'
    · cases hr
      cases hr'
      simp only
      omega
    · cases hr'
  · cases hr

/-- The rows of a buffer lie in the bytes that it hands on, in order. -/
theorem bufferRows_any (job : ScanJob) (h : Xxh Digest) (off : Nat) (eof : Bool) (buffer : Buffer) :
    ((bufferRows job h off eof buffer).Pairwise fun a b => a.loff < b.loff) ∧
      ∀ r ∈ bufferRows job h off eof buffer,
        off ≤ r.loff ∧ r.loff < off + processedBytes job eof buffer := by
  have hle := Nat.div_mul_le_self buffer.dlLen job.blocksize
  unfold bufferRows processedBytes
  cases hcut : cutsBlocks job buffer with
  | false => simp
  | true =>
    cases eof with
    | false =>
      simp only [if_true, Bool.false_eq_true, if_false, List.append_nil, Bool.not_false,
        Bool.and_self]
      exact ⟨fullRows_sorted job h off buffer, fun r hr => mem_fullRows hr⟩
    | true =>
      simp only [if_true, Bool.not_true, Bool.and_false, Bool.false_eq_true, if_false]
      unfold tailRow
      split
      · rename_i htail
        constructor
        · rw [List.pairwise_append]
          refine ⟨fullRows_sorted job h off buffer, List.pairwise_singleton _ _, ?_⟩
          intro a ha b hb
          rw [List.mem_singleton.1 hb]
          exact (mem_fullRows ha).2
        · intro r hr
          rcases List.mem_append.1 hr with hr | hr
          · have := mem_fullRows hr
            omega
          · rw [List.mem_singleton.1 hr]
            simp only
            omega
      · rw [List.append_nil]
        refine ⟨fullRows_sorted job h off buffer, fun r hr => ?_⟩
        have := mem_fullRows hr
        omega

theorem BlocksUpTo.append {off off' : Nat} {rows new : List (BlockCsum Digest)}
    (hrows : BlocksUpTo off rows) (hsorted : new.Pairwise fun a b => a.loff < b.loff)
    (hnew : ∀ r ∈ new, off ≤ r.loff ∧ r.loff < off') (hle : off ≤ off') :
    BlocksUpTo off' (rows ++ new) := by
  constructor
  · rw [List.pairwise_append]
    refine ⟨hrows.sorted, hsorted, fun a ha b hb => ?_⟩
    exact Nat.lt_of_lt_of_le (hrows.below a ha) (hnew b hb).1
  · intro r hr
    rcases List.mem_append.1 hr with hr | hr
    · exact Nat.lt_of_lt_of_le (hrows.below r hr) hle
    · exact (hnew r hr).2

end Blocks

/-! ## The consumers -/

/-- The state after the consumers took `bytes` bytes, as far as it does not depend on
    what the bytes are. -/
structure Taken (job : ScanJob) (s : ScanState Digest) (bytes : Nat) (s' : ScanState Digest) :
    Prop where
  off : s'.off = s.off + bytes
  eof : s'.eofReached = s.eofReached
  reads : s'.reads = s.reads
  buffer : s'.buffer = { s.buffer with dlOffset := bytes, dlLen := s.buffer.dlLen - bytes }
  fileCsum : s'.fileCsum.bytes = s.fileCsum.bytes ++ s.buffer.buf.take bytes
  blocks : BlocksUpTo s'.off s'.hashes.blocks
  extents : StoredRows job s'.off s'.hashes.extents

/-- The consumers of a filled buffer take all processed bytes, or stop at a byte
    without an extent. -/
theorem consumeBuffer_any {job : ScanJob} (h : Xxh Digest) {s : ScanState Digest}
    (hbits : s.off + s.buffer.dlLen < 2 ^ 64) (hblocks : BlocksUpTo s.off s.hashes.blocks)
    (hrows : StoredRows job s.off s.hashes.extents) :
    (∃ s', consumeBuffer job h s =
        (if s.eofReached then .leave (.finished, s') else .again s') ∧
      Taken job s (processedBytes job s.eofReached s.buffer) s') ∨
    ∃ s', consumeBuffer job h s = .leave (.noExtent, s') ∧ s'.off = s.off := by
  obtain ⟨scanned, hhash⟩ := hashBlocks_eq job h s
  obtain ⟨hsorted, hnew⟩ := bufferRows_any job h s.off s.eofReached s.buffer
  have hle := processedBytes_le job s.eofReached s.buffer
  unfold consumeBuffer
  rw [hhash]
  generalize processedBytes job s.eofReached s.buffer = bytes at *
  have hblocks' := hblocks.append hsorted hnew (Nat.le_add_right _ _)
  cases hwhole : job.options.onlyWholeFiles with
  | true =>
    left
    simp only [if_true]
    exact ⟨_, rfl, rfl, rfl, rfl, rfl, by simp [advance], hblocks',
      hrows.mono (Nat.le_add_right _ _)⟩
  | false =>
    simp only [Bool.false_eq_true, if_false]
    generalize hs₁ : ({ s with
      hashes := { s.hashes with
        blocks := s.hashes.blocks ++ bufferRows job h s.off s.eofReached s.buffer }
      fileScannedBytes := s.fileScannedBytes + scanned
      totalScannedBytes := s.totalScannedBytes + scanned
      fileCsum := addToRunningChecksum s.fileCsum (s.buffer.buf.take bytes) } :
        ScanState Digest) = s₁
    have hoff₁ : s₁.off = s.off := by subst hs₁; rfl
    have hrows₁ : StoredRows job s₁.off s₁.hashes.extents := by subst hs₁; exact hrows
    have hbits₁ : s₁.off + bytes < 2 ^ 64 := by omega
    obtain ⟨⟨exit, w⟩, hrun, hassert, hdone⟩ := processExtents_any h hbits₁ hrows₁
    rw [hrun]
    cases exit with
    | done =>
      left
      rw [hoff₁] at hdone
      refine ⟨_, rfl, ?_⟩
      subst hs₁
      exact ⟨rfl, rfl, rfl, rfl, by simp [advance], hblocks', hdone rfl⟩
    | noExtent => exact .inr ⟨_, rfl, rfl⟩
    | assertFailed => exact absurd rfl hassert

/-! ## The loop -/

/-- The states at the head of the loop, in the run on a thread's buffer. -/
inductive LoopHead (job : ScanJob) (h : Xxh Digest) (buffer : ThreadBuffer) :
    ScanState Digest → Prop where
  | start : LoopHead job h buffer (scanStart buffer)
  | again {s s' : ScanState Digest} (hhead : LoopHead job h buffer s)
      (hround : scanRound fillBuffer job h s = .again s') : LoopHead job h buffer s'

/-- The call of `pread` in the round from `s`: how much, and from where. -/
def preadCall (job : ScanJob) (s : ScanState Digest) : Option (Nat × Nat) :=
  if s.off < job.filesize ∧ isFastForwarded job s.off s.buffer.size = false then
    some (s.buffer.size - s.buffer.dlLen, s.off + s.buffer.dlLen)
  else none

/-- The answer to this call is all that a round takes from the kernel. -/
theorem scanRound_congr_pread {job : ScanJob} {h : Xxh Digest} {s : ScanState Digest}
    {pread : Nat → Nat → Nat → Option (List Byte)}
    (hle : ∀ reads count off bytes, pread reads count off = some bytes → bytes.length ≤ count)
    (hsame : ∀ count off, preadCall job s = some (count, off) →
      pread s.reads count off = job.pread s.reads count off) :
    scanRound fillBuffer { job with pread := pread, pread_le := hle } h s =
      scanRound fillBuffer job h s := by
  have hfill : s.off < job.filesize →
      fillBuffer { job with pread := pread, pread_le := hle } s.off s.reads s.buffer =
        fillBuffer job s.off s.reads s.buffer := by
    intro hlt
    cases hskip : isFastForwarded job s.off s.buffer.size with
    | true =>
      have hskip' : isFastForwarded { job with pread := pread, pread_le := hle } s.off
        s.buffer.size = true := hskip
      simp only [fillBuffer, hskip, hskip', if_true]
    | false =>
      have hskip' : isFastForwarded { job with pread := pread, pread_le := hle } s.off
        s.buffer.size = false := hskip
      have hcall := hsame _ _ (if_pos ⟨hlt, hskip⟩)
      have hsize : s.buffer.moveLeftovers.size = s.buffer.size := rfl
      have hdl : s.buffer.moveLeftovers.dlLen = s.buffer.dlLen := rfl
      simp only [fillBuffer, hskip, hskip', Bool.false_eq_true, if_false, fillFromFile, hsize, hdl,
        hcall]
  unfold scanRound
  by_cases hlt : s.off < job.filesize
  · simp only [hlt, if_true, hfill hlt]
    rfl
  · simp only [hlt, if_false]

/-- The byte of the file at `off` was `b` in this run: some `pread` returned it there,
    or a round skipped it as zero. -/
inductive Given (job : ScanJob) (h : Xxh Digest) (buffer : ThreadBuffer) (off : Nat) (b : Byte) :
    Prop where
  | read (s : ScanState Digest) (count start : Nat) (bytes : List Byte)
      (hhead : LoopHead job h buffer s) (hcall : preadCall job s = some (count, start))
      (hread : job.pread s.reads count start = some bytes) (hle : start ≤ off)
      (hbyte : bytes[off - start]? = some b)
  | skipped (s : ScanState Digest) (hhead : LoopHead job h buffer s)
      (hlt : s.off < job.filesize) (hskip : isFastForwarded job s.off s.buffer.size = true)
      (hle : s.off ≤ off) (hend : off < s.off + s.buffer.size) (hzero : b = 0)

section Loop

variable {job : ScanJob} {h : Xxh Digest} {thread : ThreadBuffer}

/-- What the consumers got: the file checksum the bytes of all offsets up to `off`, the
    other two rows in order. -/
structure Handed (job : ScanJob) (h : Xxh Digest) (thread : ThreadBuffer)
    (s : ScanState Digest) : Prop where
  length : s.fileCsum.bytes.length = s.off
  bytes : ∀ i b, s.fileCsum.bytes[i]? = some b → Given job h thread i b
  blocks : BlocksUpTo s.off s.hashes.blocks
  extents : StoredRows job s.off s.hashes.extents

/-- The invariant of the loop: the buffer holds less than a block of bytes that follow
    the current offset. -/
structure AnyInv (job : ScanJob) (h : Xxh Digest) (thread : ThreadBuffer)
    (s : ScanState Digest) : Prop where
  head : LoopHead job h thread s
  handed : Handed job h thread s
  eof : s.eofReached = false
  size : s.buffer.size = readBufLen
  length : s.buffer.buf.length = readBufLen
  inBuf : s.buffer.dlOffset + s.buffer.dlLen ≤ readBufLen
  partialBlock : s.buffer.dlLen < job.blocksize
  leftovers : ∀ i < s.buffer.dlLen, ∀ b, s.buffer.buf[s.buffer.dlOffset + i]? = some b →
    Given job h thread (s.off + i) b

/-- How the loop may end: not at an assertion. At the end of the file all offsets were
    handed on, and without an extent the file was not read to its end. -/
structure AnyPost (job : ScanJob) (h : Xxh Digest) (thread : ThreadBuffer)
    (r : ScanExit × ScanState Digest) : Prop where
  assertions : r.1 ≠ .assertFailed ∧ r.1 ≠ .outOfFuel
  finished : r.1 = .finished → Handed job h thread r.2
  noExtent : r.1 = .noExtent → r.2.off < job.filesize

/-- A buffer that was filled in the round from `s`. -/
structure Filled (job : ScanJob) (h : Xxh Digest) (thread : ThreadBuffer) (s : ScanState Digest)
    (buffer : Buffer) : Prop where
  size : buffer.size = readBufLen
  length : buffer.buf.length = readBufLen
  dlLen : buffer.dlLen ≤ readBufLen
  data : ∀ i < buffer.dlLen, ∀ b, buffer.buf[i]? = some b → Given job h thread (s.off + i) b

/-- The bytes that the consumers took were given, like those before them. -/
theorem Handed.taken {s filled s' : ScanState Digest} {buffer : Buffer} {bytes : Nat}
    (hs : Handed job h thread s) (hfilled : Filled job h thread s buffer)
    (htaken : Taken job filled bytes s') (hle : bytes ≤ buffer.dlLen)
    (hoff : filled.off = s.off) (hcsum : filled.fileCsum = s.fileCsum)
    (hbuffer : filled.buffer = buffer) : Handed job h thread s' := by
  have hlen := hs.length
  have hbuf := hfilled.length
  have hroom := hfilled.dlLen
  have hbytes : s'.fileCsum.bytes = s.fileCsum.bytes ++ buffer.buf.take bytes := by
    rw [htaken.fileCsum, hcsum, hbuffer]
  refine ⟨?_, ?_, htaken.blocks, htaken.extents⟩
  · rw [hbytes, List.length_append, List.length_take, htaken.off]
    omega
  · intro i b hb
    rw [hbytes] at hb
    by_cases hold : i < s.off
    · rw [List.getElem?_append_left (by rw [hlen]; exact hold)] at hb
      exact hs.bytes i b hb
    · rw [List.getElem?_append_right (by rw [hlen]; omega), hlen] at hb
      have hin : i - s.off < bytes := by
        by_contra hout
        rw [List.getElem?_eq_none (by rw [List.length_take]; omega)] at hb
        cases hb
      rw [List.getElem?_take_of_lt hin] at hb
      have hgiven := hfilled.data (i - s.off) (by omega) b hb
      rwa [Nat.add_sub_of_le (by omega)] at hgiven

/-- A round takes the bytes of the file further and keeps the invariant, or it ends the
    loop as it should. -/
def AnyRound (job : ScanJob) (h : Xxh Digest) (thread : ThreadBuffer) (s : ScanState Digest) :
    Prop :=
  (∃ s', scanRound fillBuffer job h s = .again s' ∧ AnyInv job h thread s' ∧
    s.off + s.buffer.dlLen < s'.off + s'.buffer.dlLen) ∨
  ∃ r, scanRound fillBuffer job h s = .leave r ∧ AnyPost job h thread r

/-- From a filled buffer to the end of the round. -/
theorem consumeBuffer_step {s : ScanState Digest} (hs : AnyInv job h thread s)
    (hlt : s.off < job.filesize) {buffer : Buffer} (hfilled : Filled job h thread s buffer)
    (eof : Bool) (reads : Nat)
    (hround : scanRound fillBuffer job h s =
      consumeBuffer job h { s with buffer := buffer, reads := reads, eofReached := eof })
    (hmore : eof = false → s.buffer.dlLen < buffer.dlLen) : AnyRound job h thread s := by
  let filled : ScanState Digest := { s with buffer := buffer, reads := reads, eofReached := eof }
  have hsize := job.filesize_lt
  have hlen := hfilled.dlLen
  have hread : readBufLen = 8388608 := rfl
  have hbits : filled.off + filled.buffer.dlLen < 2 ^ 64 := by
    simp only [filled]
    omega
  rcases consumeBuffer_any h hbits hs.handed.blocks hs.handed.extents with
    ⟨s', hrun, htaken⟩ | ⟨s', hrun, hoff⟩
  · have hle := processedBytes_le job filled.eofReached filled.buffer
    have hdl : filled.buffer.dlLen = buffer.dlLen := rfl
    generalize hbytes : processedBytes job filled.eofReached filled.buffer = bytes at htaken hle
    have hhanded : Handed job h thread s' := hs.handed.taken hfilled htaken hle rfl rfl rfl
    rw [AnyRound, hround]
    cases eof with
    | true =>
      right
      refine ⟨_, hrun, ⟨by simp, by simp⟩, fun _ => hhanded, ?_⟩
      intro hexit
      cases hexit
    | false =>
      left
      have hagain : scanRound fillBuffer job h s = .again s' := hround.trans hrun
      have hleft : buffer.dlLen - bytes < job.blocksize := by
        rw [← hbytes]
        exact leftover_lt job filled.eofReached filled.buffer
      have hgrows := hmore rfl
      have hdlOffset : s'.buffer.dlOffset = bytes := by rw [htaken.buffer]
      have hdlLen : s'.buffer.dlLen = buffer.dlLen - bytes := by rw [htaken.buffer]
      have hbuf : s'.buffer.buf = buffer.buf := by rw [htaken.buffer]
      have hoff' : s'.off = s.off + bytes := htaken.off
      refine ⟨s', hrun, ⟨hs.head.again hagain, hhanded, htaken.eof, ?_, ?_, ?_, ?_, ?_⟩, ?_⟩
      · rw [htaken.buffer]
        exact hfilled.size
      · rw [hbuf]
        exact hfilled.length
      · omega
      · rw [hdlLen]
        exact hleft
      · intro i hi b hb
        rw [hbuf, hdlOffset] at hb
        rw [hoff', Nat.add_assoc]
        exact hfilled.data (bytes + i) (by omega) b hb
      · omega
  · rw [AnyRound, hround]
    right
    refine ⟨_, hrun, ⟨by simp, by simp⟩, ?_, ?_⟩
    · intro hexit
      cases hexit
    · intro _
      rw [hoff]
      exact hlt

/-- The buffer of a round that fast-forwards. -/
theorem filled_fakeFill {s : ScanState Digest} (hs : AnyInv job h thread s)
    (hlt : s.off < job.filesize) (hskip : isFastForwarded job s.off s.buffer.size = true) :
    Filled job h thread s s.buffer.fakeFill := by
  refine ⟨hs.size, ?_, ?_, ?_⟩
  · simp only [Buffer.fakeFill, List.length_replicate]
    exact hs.size
  · exact Nat.le_of_eq hs.size
  · intro i hi b hb
    simp only [Buffer.fakeFill] at hi hb
    rw [List.getElem?_replicate_of_lt hi] at hb
    cases hb
    exact .skipped s hs.head hlt hskip (by omega) (by omega) rfl

/-- The buffer of a round that reads, after the kernel returned `bytes`. -/
theorem filled_receive {s : ScanState Digest} (hs : AnyInv job h thread s) {bytes : List Byte}
    (hcall : preadCall job s = some (s.buffer.size - s.buffer.dlLen, s.off + s.buffer.dlLen))
    (hread : job.pread s.reads (s.buffer.size - s.buffer.dlLen) (s.off + s.buffer.dlLen) =
      some bytes) : Filled job h thread s (s.buffer.moveLeftovers.receive bytes) := by
  have hcount := job.pread_le _ _ _ _ hread
  have hin := hs.inBuf
  have hlen := hs.length
  rw [hs.size] at hcount
  have hroom : s.buffer.dlLen + bytes.length ≤ s.buffer.buf.length := by
    rw [hlen]
    omega
  obtain ⟨hgotLen, hgot⟩ := receive_moveLeftovers (by rw [hlen]; exact hin) hroom
  have hfilled : (s.buffer.moveLeftovers.receive bytes).dlLen = s.buffer.dlLen + bytes.length := rfl
  refine ⟨hs.size, by rw [hgotLen, hlen], by rw [hfilled]; omega, ?_⟩
  intro i hi b hb
  rw [hfilled] at hi
  have hold : ((s.buffer.buf.drop s.buffer.dlOffset).take s.buffer.dlLen).length =
      s.buffer.dlLen := by
    rw [List.length_take, List.length_drop]
    omega
  rw [← List.getElem?_take_of_lt hi, hgot] at hb
  by_cases hleft : i < s.buffer.dlLen
  · rw [List.getElem?_append_left (by omega), List.getElem?_take_of_lt hleft,
      List.getElem?_drop] at hb
    exact hs.leftovers i hleft b hb
  · rw [List.getElem?_append_right (by omega), hold] at hb
    refine .read s _ _ bytes hs.head hcall hread (by omega) ?_
    rw [← hb]
    congr 1
    omega

/-- A round that fast-forwards. -/
theorem scanRound_any_fast {s : ScanState Digest} (hs : AnyInv job h thread s)
    (hlt : s.off < job.filesize) (hskip : isFastForwarded job s.off s.buffer.size = true) :
    AnyRound job h thread s := by
  have hblock := job.blocksize_lt_readBufLen
  have hpart := hs.partialBlock
  have hfilled := filled_fakeFill hs hlt hskip
  refine consumeBuffer_step hs hlt hfilled (decide (job.filesize ≤ s.off + s.buffer.size))
    s.reads ?_ fun _ => ?_
  · simp only [scanRound, hlt, if_true, fillBuffer, hskip]
    by_cases hend : job.filesize ≤ s.off + s.buffer.size
    · simp [hend]
    · simp [hend, hs.eof]
  · show s.buffer.dlLen < s.buffer.size
    rw [hs.size]
    omega

/-- A round that reads. -/
theorem scanRound_any_read {s : ScanState Digest} (hs : AnyInv job h thread s)
    (hlt : s.off < job.filesize) (hskip : isFastForwarded job s.off s.buffer.size = false) :
    AnyRound job h thread s := by
  have hblock := job.blocksize_lt_readBufLen
  have hpart := hs.partialBlock
  have hcall : preadCall job s =
      some (s.buffer.size - s.buffer.dlLen, s.off + s.buffer.dlLen) := by
    rw [preadCall, if_pos ⟨hlt, hskip⟩]
  have hsize : s.buffer.moveLeftovers.size = s.buffer.size := rfl
  have hdl : s.buffer.moveLeftovers.dlLen = s.buffer.dlLen := rfl
  have hdlOffset : s.buffer.moveLeftovers.dlOffset = 0 := rfl
  cases hread : job.pread s.reads (s.buffer.size - s.buffer.dlLen)
      (s.off + s.buffer.dlLen) with
  | none =>
    right
    have hassert : 0 + s.buffer.dlLen ≤ s.buffer.size := by
      rw [hs.size]
      omega
    simp only [scanRound, hlt, if_true, fillBuffer, hskip, Bool.false_eq_true, if_false,
      fillFromFile, hsize, hdl, hdlOffset, hread, hassert]
    refine ⟨_, rfl, ⟨by simp, by simp⟩, ?_, ?_⟩
    · intro hexit
      cases hexit
    · intro hexit
      cases hexit
  | some bytes =>
    have hfilled := filled_receive hs hcall hread
    let buffer := s.buffer.moveLeftovers.receive bytes
    have hassert : buffer.dlOffset + buffer.dlLen ≤ buffer.size := by
      have hzero : buffer.dlOffset = 0 := rfl
      rw [hfilled.size, hzero, Nat.zero_add]
      exact hfilled.dlLen
    refine consumeBuffer_step hs hlt hfilled
      (decide (bytes = [] ∨ s.off + buffer.dlLen = job.filesize)) (s.reads + 1) ?_ ?_
    · simp only [scanRound, hlt, if_true, fillBuffer, hskip, Bool.false_eq_true, if_false,
        fillFromFile, hsize, hdl, hread]
      rw [if_pos hassert]
      by_cases hend : bytes = [] ∨ s.off + buffer.dlLen = job.filesize
      · rw [if_pos hend, decide_eq_true hend]
      · rw [if_neg hend, decide_eq_false hend, ← hs.eof]
    · intro hopen
      have hne : bytes ≠ [] := fun hnil => of_decide_eq_false hopen (.inl hnil)
      have hpos := List.length_pos_iff.2 hne
      show s.buffer.dlLen < s.buffer.dlLen + bytes.length
      omega

/-- One round from any state of the run. -/
theorem scanRound_any {s : ScanState Digest} (hs : AnyInv job h thread s) :
    (∃ s', scanRound fillBuffer job h s = .again s' ∧ AnyInv job h thread s' ∧
      s.off < job.filesize ∧ s.off + s.buffer.dlLen < s'.off + s'.buffer.dlLen) ∨
    ∃ r, scanRound fillBuffer job h s = .leave r ∧ AnyPost job h thread r := by
  by_cases hlt : s.off < job.filesize
  · have hstep : AnyRound job h thread s := by
      cases hskip : isFastForwarded job s.off s.buffer.size with
      | true => exact scanRound_any_fast hs hlt hskip
      | false => exact scanRound_any_read hs hlt hskip
    rcases hstep with ⟨s', hround, hs', hmore⟩ | hleave
    · exact .inl ⟨s', hround, hs', hlt, hmore⟩
    · exact .inr hleave
  · right
    refine ⟨(.finished, s), by simp [scanRound, hlt], ⟨by simp, by simp⟩, fun _ => hs.handed, ?_⟩
    intro hexit
    cases hexit

theorem scanStart_any (job : ScanJob) (h : Xxh Digest) (thread : ThreadBuffer) :
    AnyInv job h thread (scanStart thread) where
  head := .start
  handed := ⟨rfl, fun _ _ hb => (nomatch hb), ⟨List.Pairwise.nil, fun _ hr => (nomatch hr)⟩,
    storedRows_nil job 0⟩
  eof := rfl
  size := rfl
  length := thread.length_buf
  inBuf := Nat.zero_le _
  partialBlock := job.blocksize_pos
  leftovers := fun i hi => absurd hi (Nat.not_lt_zero i)

/-- Every state of the run satisfies the invariant. -/
theorem LoopHead.inv {s : ScanState Digest} (hhead : LoopHead job h thread s) :
    AnyInv job h thread s := by
  induction hhead with
  | start => exact scanStart_any job h thread
  | again _ hround ih =>
    rcases scanRound_any ih with ⟨s'', heq, hs'', -⟩ | ⟨r, heq, -⟩
    · rw [heq] at hround
      cases hround
      exact hs''
    · rw [heq] at hround
      cases hround

/-- The main loop ends, whatever the kernel answers. -/
theorem scanLoop_any (job : ScanJob) (h : Xxh Digest) (thread : ThreadBuffer) :
    ∃ r, scanLoop fillBuffer job h thread = some r ∧ AnyPost job h thread r := by
  -- The bytes that were read grow, and stay less than a block in front of those processed.
  refine Loop.run_total (AnyInv job h thread)
    (fun s => job.filesize + job.blocksize - (s.off + s.buffer.dlLen)) ?_ _ _
    (scanStart_any job h thread) ?_
  · intro s hs
    have hpart := hs.partialBlock
    rcases scanRound_any hs with ⟨s', heq, hs', hlt, hmore⟩ | hleave
    · exact .inl ⟨s', heq, hs', by omega⟩
    · exact .inr hleave
  · omega

/-- `pread` is never asked for nothing. -/
theorem LoopHead.preadCall_pos {s : ScanState Digest} (hhead : LoopHead job h thread s)
    {count start : Nat} (hcall : preadCall job s = some (count, start)) : 0 < count := by
  have hs := hhead.inv
  have hpart := hs.partialBlock
  have hblock := job.blocksize_lt_readBufLen
  unfold preadCall at hcall
  split at hcall
  · cases hcall
    rw [hs.size]
    omega
  · cases hcall

/-- What is committed after any reads. -/
theorem AnyPost.commitOf {r : ScanExit × ScanState Digest} (hpost : AnyPost job h thread r)
    {commit : ScanCommit Digest} (hcommit : commitOf job h r.1 r.2 = some commit) :
    r.2.off = job.filesize ∧ Handed job h thread r.2 ∧
      commit.digest = finishRunningChecksum h r.2.fileCsum ∧
      (commit.blocks = [] ∨ commit.blocks = r.2.hashes.blocks) ∧
      commit.extents = r.2.hashes.extents := by
  obtain ⟨exit, s⟩ := r
  have hmissing := hpost.noExtent
  cases exit with
  | readError | assertFailed | outOfFuel => cases hcommit
  | finished | noExtent =>
    simp only [Duperemove.commitOf] at hcommit
    split at hcommit
    · cases hcommit
    · rename_i hoff
      cases hcommit
      have hall : s.off = job.filesize := Decidable.not_not.1 hoff
      refine ⟨hall, ?_, rfl, ?_, rfl⟩
      · first
        | exact hpost.finished rfl
        | exact absurd hall (Nat.ne_of_lt (hmissing rfl))
      · simp only
        split
        · exact .inl rfl
        · exact .inr rfl

end Loop

end Duperemove
