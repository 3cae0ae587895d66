-- SUMMARY: The rows that `process_blocks` adds, in terms of the buffer and in terms of the file.
import Duperemove.FileScan.Model

/-!
# The block consumer

The rows of one filled buffer: a row for every entire block that is hashed, and
at the end of the file a row for the partial block. `hashBlocks_eq` reads them
off the buffer. `bufferRows_eq` reads them off the file: when the buffer holds
the bytes of the file from some offset on, its rows are the rows of the blocks
cut from that offset on.
-/

namespace Duperemove

variable {Digest : Type}

/-- A read leaves the bytes that were not processed in front of the new ones. -/
theorem receive_moveLeftovers {b : Buffer} {bytes : List Byte}
    (hin : b.dlOffset + b.dlLen ≤ b.buf.length) (hroom : b.dlLen + bytes.length ≤ b.buf.length) :
    (b.moveLeftovers.receive bytes).buf.length = b.buf.length ∧
      (b.moveLeftovers.receive bytes).buf.take (b.dlLen + bytes.length) =
        (b.buf.drop b.dlOffset).take b.dlLen ++ bytes := by
  have hkept : ((b.buf.drop b.dlOffset).take b.dlLen).length = b.dlLen := by
    rw [List.length_take, List.length_drop]
    omega
  -- The leftovers are at the start of the buffer, where they are copied or where
  -- they are none.
  obtain ⟨hlen, hmoved⟩ : b.moveLeftovers.buf.length = b.buf.length ∧
      b.moveLeftovers.buf.take b.dlLen = (b.buf.drop b.dlOffset).take b.dlLen := by
    unfold Buffer.moveLeftovers
    by_cases hzero : b.dlLen = 0
    · simp [hzero]
    · simp only [hzero, if_false]
      constructor
      · rw [List.length_append, hkept, List.length_drop]
        omega
      · rw [List.take_append_of_le_length (by omega), List.take_of_length_le (by omega)]
  have hdl : b.moveLeftovers.dlLen = b.dlLen := rfl
  have hboth : ((b.buf.drop b.dlOffset).take b.dlLen ++ bytes).length = b.dlLen + bytes.length := by
    rw [List.length_append, hkept]
  simp only [Buffer.receive, hdl, hmoved]
  constructor
  · rw [List.length_append, hboth, List.length_drop, hlen]
    omega
  · rw [List.take_append_of_le_length (by omega), List.take_of_length_le (by omega)]

/-- The rows added for the entire blocks of the buffer. -/
def fullRows (job : ScanJob) (h : Xxh Digest) (off : Nat) (buffer : Buffer) :
    List (BlockCsum Digest) :=
  (List.range (buffer.dlLen / job.blocksize)).filterMap fun i =>
    if isBlockHashed job buffer (off + i * job.blocksize) then
      some ⟨off + i * job.blocksize,
        checksumBlock h ((buffer.buf.drop (i * job.blocksize)).take job.blocksize)⟩
    else none

/-- The row added for the partial block behind the `bytes` bytes of entire
    blocks. -/
def tailRow (h : Xxh Digest) (off bytes : Nat) (buffer : Buffer) : List (BlockCsum Digest) :=
  if bytes < buffer.dlLen then
    [⟨off + bytes, checksumBlock h ((buffer.buf.drop bytes).take (buffer.dlLen - bytes))⟩]
  else []

/-- Whether the buffer is cut into blocks at all. -/
def cutsBlocks (job : ScanJob) (buffer : Buffer) : Bool :=
  job.options.doBlockHash && !buffer.faked

/-- The number of bytes one filled buffer hands on: all of them at the end of
    the file or when no blocks are cut, else the entire blocks. -/
def processedBytes (job : ScanJob) (eof : Bool) (buffer : Buffer) : Nat :=
  if cutsBlocks job buffer && !eof then buffer.dlLen / job.blocksize * job.blocksize
  else buffer.dlLen

/-- The rows that one filled buffer adds. -/
def bufferRows (job : ScanJob) (h : Xxh Digest) (off : Nat) (eof : Bool) (buffer : Buffer) :
    List (BlockCsum Digest) :=
  if cutsBlocks job buffer then
    fullRows job h off buffer ++
      if eof then tailRow h off (buffer.dlLen / job.blocksize * job.blocksize) buffer else []
  else []

theorem ScanJob.blocksize_pos (job : ScanJob) : 0 < job.blocksize :=
  Nat.lt_of_lt_of_le (by decide) job.blocksize_ge

theorem ScanJob.blocksize_lt_readBufLen (job : ScanJob) : job.blocksize < readBufLen :=
  Nat.lt_of_le_of_lt job.blocksize_le (by decide)

theorem processedBytes_le (job : ScanJob) (eof : Bool) (buffer : Buffer) :
    processedBytes job eof buffer ≤ buffer.dlLen := by
  unfold processedBytes
  split
  · exact Nat.div_mul_le_self _ _
  · exact Nat.le_refl _

/-- Less than a block is left in the buffer. -/
theorem leftover_lt (job : ScanJob) (eof : Bool) (buffer : Buffer) :
    buffer.dlLen - processedBytes job eof buffer < job.blocksize := by
  have hpos := job.blocksize_pos
  have hdiv := Nat.lt_div_mul_add (a := buffer.dlLen) hpos
  unfold processedBytes
  split <;> omega

/-- Appending rows in a loop appends the list of the rows. -/
theorem foldl_addBlockHash (l : List Nat) (row : Nat → Option (BlockCsum Digest))
    (hashes : Hashes Digest) :
    l.foldl (fun hashes i =>
      match row i with
      | some r => addBlockHash hashes r.loff r.digest
      | none => hashes) hashes =
    { hashes with blocks := hashes.blocks ++ l.filterMap row } := by
  induction l generalizing hashes with
  | nil => simp
  | cons i l ih =>
    rw [List.foldl_cons, ih]
    cases hrow : row i with
    | none => simp [hrow]
    | some r => simp [hrow, addBlockHash]

theorem processBlocks_eq (job : ScanJob) (h : Xxh Digest) (off : Nat) (buffer : Buffer)
    (hashes : Hashes Digest) :
    processBlocks job h off buffer hashes =
      if cutsBlocks job buffer then
        (buffer.dlLen / job.blocksize * job.blocksize,
          { hashes with blocks := hashes.blocks ++ fullRows job h off buffer })
      else (buffer.dlLen, hashes) := by
  unfold processBlocks cutsBlocks
  cases hcut : (job.options.doBlockHash && !buffer.faked) with
  | false =>
    have hno : (!job.options.doBlockHash || buffer.faked) = true := by
      cases hb : job.options.doBlockHash <;> cases hf : buffer.faked <;> simp_all
    simp [hno]
  | true =>
    have hyes : (!job.options.doBlockHash || buffer.faked) = false := by
      cases hb : job.options.doBlockHash <;> cases hf : buffer.faked <;> simp_all
    simp only [hyes, Bool.false_eq_true, if_false, if_true, Prod.mk.injEq, true_and]
    rw [fullRows, ← foldl_addBlockHash]
    congr 1
    funext hashes i
    by_cases hrow : isBlockHashed job buffer (off + i * job.blocksize)
    · simp [hrow, processBlock]
    · simp [hrow]

/-- `hashBlocks` changes the block rows and the progress counters only. -/
theorem hashBlocks_eq (job : ScanJob) (h : Xxh Digest) (s : ScanState Digest) :
    ∃ scanned, hashBlocks job h s =
      (processedBytes job s.eofReached s.buffer,
        { s with
          hashes := { s.hashes with
            blocks := s.hashes.blocks ++ bufferRows job h s.off s.eofReached s.buffer }
          fileScannedBytes := s.fileScannedBytes + scanned
          totalScannedBytes := s.totalScannedBytes + scanned }) := by
  unfold hashBlocks bufferRows processedBytes
  rw [processBlocks_eq]
  cases hcut : cutsBlocks job s.buffer with
  | false =>
    refine ⟨s.buffer.dlLen, ?_⟩
    simp
  | true =>
    refine ⟨s.buffer.dlLen / job.blocksize * job.blocksize, ?_⟩
    cases heof : s.eofReached with
    | false => simp
    | true =>
      have hle := Nat.div_mul_le_self s.buffer.dlLen job.blocksize
      by_cases htail : s.buffer.dlLen / job.blocksize * job.blocksize < s.buffer.dlLen
      · simp [htail, tailRow, processBlock, addBlockHash]
      · have hall : s.buffer.dlLen / job.blocksize * job.blocksize = s.buffer.dlLen := by omega
        simp [tailRow, hall]

-- ---------------------------------------------------------------------------
-- Rows of the file
-- ---------------------------------------------------------------------------

/-- The row of the block of `c` at offset `off`. A partial block at the end of
    the file is not tested for ignored extents. -/
def blockRow (job : ScanJob) (h : Xxh Digest) (c : List Byte) (off : Nat) :
    Option (BlockCsum Digest) :=
  if off + job.blocksize ≤ job.filesize ∧ isBlockIgnored job off then none
  else some ⟨off, h.xxh128 ((c.drop off).take job.blocksize)⟩

/-- The number of blocks that `bytes` bytes are cut into. -/
def blockCount (job : ScanJob) (bytes : Nat) : Nat :=
  (bytes + job.blocksize - 1) / job.blocksize

/-- The rows of the blocks that the next `bytes` bytes from `off` on are cut
    into. -/
def blockRows (job : ScanJob) (h : Xxh Digest) (c : List Byte) (off bytes : Nat) :
    List (BlockCsum Digest) :=
  (List.range (blockCount job bytes)).filterMap fun i => blockRow job h c (off + i * job.blocksize)

theorem blockCount_mul (job : ScanJob) (n : Nat) : blockCount job (n * job.blocksize) = n := by
  have hpos := job.blocksize_pos
  unfold blockCount
  rw [Nat.div_eq_of_lt_le]
  · omega
  · rw [Nat.succ_mul]
    omega

/-- Bytes that end in the block behind the first `k` ones. -/
theorem blockCount_eq_succ {job : ScanJob} {k bytes : Nat} (hlo : k * job.blocksize < bytes)
    (hhi : bytes ≤ k * job.blocksize + job.blocksize) : blockCount job bytes = k + 1 := by
  unfold blockCount
  apply Nat.div_eq_of_lt_le
  · rw [Nat.succ_mul]
    omega
  · rw [Nat.succ_mul, Nat.succ_mul]
    omega

theorem blockCount_of_tail {job : ScanJob} {bytes : Nat}
    (htail : bytes / job.blocksize * job.blocksize < bytes) :
    blockCount job bytes = bytes / job.blocksize + 1 :=
  blockCount_eq_succ htail (Nat.le_of_lt (Nat.lt_div_mul_add job.blocksize_pos))

section File

variable {job : ScanJob} {h : Xxh Digest} {c : List Byte} {off : Nat} {buffer : Buffer}

/-- An entire block of the buffer, read off the file. -/
theorem bufferBlock_eq (hdata : buffer.buf.take buffer.dlLen = (c.drop off).take buffer.dlLen)
    {pos len : Nat} (hle : pos + len ≤ buffer.dlLen) :
    (buffer.buf.drop pos).take len = (c.drop (off + pos)).take len := by
  have hbuf : (buffer.buf.drop pos).take len =
      ((buffer.buf.take buffer.dlLen).drop pos).take len := by
    rw [List.drop_take, List.take_take]
    congr 1
    omega
  rw [hbuf, hdata, List.drop_take, List.take_take, List.drop_drop]
  congr 1
  omega

/-- The blocks of a buffer lie inside it. -/
theorem ScanJob.block_le {i len : Nat} (hi : i ∈ List.range (len / job.blocksize)) :
    i * job.blocksize + job.blocksize ≤ len := by
  rw [← Nat.succ_mul]
  exact Nat.le_trans (Nat.mul_le_mul_right _ (List.mem_range.1 hi)) (Nat.div_mul_le_self _ _)

theorem fullRows_eq (hzero : job.options.skipZeroes = false)
    (hdata : buffer.buf.take buffer.dlLen = (c.drop off).take buffer.dlLen)
    (hfile : off + buffer.dlLen ≤ job.filesize) :
    fullRows job h off buffer =
      (List.range (buffer.dlLen / job.blocksize)).filterMap fun i =>
        blockRow job h c (off + i * job.blocksize) := by
  unfold fullRows
  apply List.filterMap_congr
  intro i hi
  have hblock := job.block_le hi
  have hinside : off + i * job.blocksize + job.blocksize ≤ job.filesize := by omega
  rw [bufferBlock_eq hdata hblock]
  cases hign : isBlockIgnored job (off + i * job.blocksize) with
  | true => simp [isBlockHashed, blockRow, hign, hinside]
  | false => simp [isBlockHashed, blockRow, hign, hzero, checksumBlock]

theorem tailRow_eq (hlen : c.length = job.filesize)
    (hdata : buffer.buf.take buffer.dlLen = (c.drop off).take buffer.dlLen)
    (heof : off + buffer.dlLen = job.filesize)
    (htail : buffer.dlLen / job.blocksize * job.blocksize < buffer.dlLen) :
    tailRow h off (buffer.dlLen / job.blocksize * job.blocksize) buffer =
      (blockRow job h c (off + buffer.dlLen / job.blocksize * job.blocksize)).toList := by
  have hlt : buffer.dlLen < buffer.dlLen / job.blocksize * job.blocksize + job.blocksize :=
    Nat.lt_div_mul_add job.blocksize_pos
  have hpartial : ¬ off + buffer.dlLen / job.blocksize * job.blocksize + job.blocksize ≤
      job.filesize := by omega
  have hsplit : buffer.dlLen / job.blocksize * job.blocksize +
      (buffer.dlLen - buffer.dlLen / job.blocksize * job.blocksize) ≤ buffer.dlLen := by omega
  have hbytes := bufferBlock_eq hdata hsplit
  have hall : ∀ n, c.length - (off + buffer.dlLen / job.blocksize * job.blocksize) ≤ n →
      (c.drop (off + buffer.dlLen / job.blocksize * job.blocksize)).take n =
        c.drop (off + buffer.dlLen / job.blocksize * job.blocksize) := by
    intro n hn
    apply List.take_of_length_le
    rw [List.length_drop]
    exact hn
  simp only [tailRow, if_pos htail, hbytes, blockRow, hpartial, false_and, if_false,
    Option.toList_some, checksumBlock]
  rw [hall _ (by omega), hall _ (by omega)]

/-- The rows of a buffer that holds the file from `off` on are the rows of the
    blocks of the file from `off` on. -/
theorem bufferRows_eq (hzero : job.options.skipZeroes = false) (hlen : c.length = job.filesize)
    (hdata : buffer.buf.take buffer.dlLen = (c.drop off).take buffer.dlLen)
    (hfile : off + buffer.dlLen ≤ job.filesize) (hcut : cutsBlocks job buffer = true) :
    bufferRows job h off (decide (off + buffer.dlLen = job.filesize)) buffer =
      blockRows job h c off
        (processedBytes job (decide (off + buffer.dlLen = job.filesize)) buffer) := by
  have hfull := fullRows_eq (h := h) hzero hdata hfile
  simp only [bufferRows, processedBytes, hcut, if_true, Bool.true_and]
  by_cases heof : off + buffer.dlLen = job.filesize
  · simp only [heof, decide_true, if_true, Bool.not_true, Bool.false_eq_true, if_false]
    by_cases htail : buffer.dlLen / job.blocksize * job.blocksize < buffer.dlLen
    · rw [blockRows, blockCount_of_tail htail, List.range_succ, List.filterMap_append, hfull,
        tailRow_eq hlen hdata heof htail]
      cases hrow : blockRow job h c (off + buffer.dlLen / job.blocksize * job.blocksize) <;>
        simp [hrow]
    · have hall : buffer.dlLen = buffer.dlLen / job.blocksize * job.blocksize := by
        have := Nat.div_mul_le_self buffer.dlLen job.blocksize
        omega
      have hcount : blockCount job buffer.dlLen = buffer.dlLen / job.blocksize := by
        rw [hall, blockCount_mul, ← hall]
      rw [blockRows, hcount, hfull, tailRow, if_neg htail, List.append_nil]
  · simp only [heof, decide_false, Bool.false_eq_true, if_false, List.append_nil, Bool.not_false,
      if_true]
    rw [blockRows, blockCount_mul, hfull]

end File

end Duperemove
