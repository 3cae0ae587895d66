-- SUMMARY: The checksum phase of one file: read buffer, block hashes, extent hashes, the main loop, and what is committed.
import Duperemove.Csum
import Duperemove.Fiemap
import Duperemove.Lib.Loop
import Duperemove.Lib.Word

/-!
# Scanning a file

`csum_whole_file` reads a file through an 8 MiB buffer and hands every piece to
three consumers: the block hashes, the checksum of the file, and the checksums
of its extents. The definitions follow `file_scan.c` function by function. The
kernel is the argument `pread` of a job, so that a run is a function of the
bytes each call returns.
-/

namespace Duperemove

-- ---------------------------------------------------------------------------
-- Options and constants
-- ---------------------------------------------------------------------------

def readBufLen : Nat := 8 * 1024 * 1024
def minBlocksize : Nat := 4 * 1024
def maxBlocksize : Nat := 1024 * 1024

/-- `FILE_INLINED`, the only flag stored with a file. -/
def fileInlined : Nat := 0x0001

/-- The part of `struct options` that decides what is hashed and what is
    deduped, with the defaults of `opt.c`. -/
structure Options where
  runDedupe : Bool := false
  skipZeroes : Bool := false
  onlyWholeFiles : Bool := false
  doBlockHash : Bool := false
  dedupeSameFile : Bool := true
  batchSize : Nat := 1024
  deriving DecidableEq, Repr

-- ---------------------------------------------------------------------------
-- State
-- ---------------------------------------------------------------------------

/-- One scheduled scan: the options, the size that was `stat`ed, the extent map,
    and the kernel's answers. `pread k count off` is the answer to the `k`-th
    call, `none` for an error. Empty files are never scheduled, and file sizes
    are signed in the kernel. -/
structure ScanJob where
  options : Options
  blocksize : Nat
  filesize : Nat
  fiemap : Fiemap
  pread : Nat → Nat → Nat → Option (List Byte)
  blocksize_ge : minBlocksize ≤ blocksize
  blocksize_le : blocksize ≤ maxBlocksize
  filesize_pos : 0 < filesize
  filesize_lt : filesize < 2 ^ 63
  pread_le : ∀ k count off bytes, pread k count off = some bytes → bytes.length ≤ count

structure Buffer where
  buf : List Byte
  size : Nat
  dlOffset : Nat
  dlLen : Nat
  faked : Bool
  deriving DecidableEq, Repr

structure BlockCsum (Digest : Type) where
  loff : Nat
  digest : Digest
  deriving DecidableEq, Repr

/-- An entry of the extent array. The digest is `none` as long as the bytes that
    `calloc` cleared were not written. -/
structure ExtentCsum (Digest : Type) where
  loff : Nat
  poff : Nat
  len : Nat
  digest : Option Digest
  deriving DecidableEq, Repr

structure Hashes (Digest : Type) where
  extents : List (ExtentCsum Digest)
  blocks : List (BlockCsum Digest)
  deriving DecidableEq, Repr

/-- The variables of `csum_whole_file`: `struct scan_ctxt`, the buffer, the
    hashes, and the two counters the thread's progress shows. `reads` counts the
    calls of `pread`. -/
structure ScanState (Digest : Type) where
  off : Nat
  fileCsum : RunningChecksum
  extentCsum : Option RunningChecksum
  buffer : Buffer
  hashes : Hashes Digest
  eofReached : Bool
  reads : Nat
  fileScannedBytes : Nat
  totalScannedBytes : Nat
  deriving DecidableEq, Repr

variable {Digest : Type}

-- ---------------------------------------------------------------------------
-- Ignored areas
-- ---------------------------------------------------------------------------

/-- The loop of `is_area_ignored`. Each round looks at a later extent, so the
    rounds are bounded by the number of extents. -/
def isAreaIgnoredFrom (m : Fiemap) (stop : Nat) : Nat → Nat → Bool
  | 0, _ => false
  | fuel + 1, start =>
    if start < stop then
      match m.getExtent start with
      | none => false
      | some e =>
        if e.isSkipped then true
        else if e.isLast then false
        else isAreaIgnoredFrom m stop fuel (e.feEnd + 1)
    else false

def isAreaIgnored (m : Fiemap) (start len : Nat) : Bool :=
  isAreaIgnoredFrom m (start + len) (m.fmExtents.length + 1) start

def isBlockIgnored (job : ScanJob) (off : Nat) : Bool :=
  isAreaIgnored job.fiemap off job.blocksize

-- ---------------------------------------------------------------------------
-- Blocks
-- ---------------------------------------------------------------------------

/-- The first `int` of the block is zero, and the block equals itself shifted by
    one byte. -/
def isBlockZeroed (blocksize : Nat) (buf : List Byte) : Bool :=
  (buf.take 4).all (· == 0) && (buf.take (blocksize - 1) == (buf.drop 1).take (blocksize - 1))

def addBlockHash (hashes : Hashes Digest) (loff : Nat) (digest : Digest) : Hashes Digest :=
  { hashes with blocks := hashes.blocks ++ [⟨loff, digest⟩] }

def processBlock (h : Xxh Digest) (buf : List Byte) (fileOff : Nat) (hashes : Hashes Digest) :
    Hashes Digest :=
  addBlockHash hashes fileOff (checksumBlock h buf)

/-- Whether `process_blocks` hashes the block of the buffer at file offset
    `fileOff`. The zero test looks at the start of the buffer. -/
def isBlockHashed (job : ScanJob) (buffer : Buffer) (fileOff : Nat) : Bool :=
  !isBlockIgnored job fileOff &&
    !(job.options.skipZeroes && isBlockZeroed job.blocksize (buffer.buf.drop buffer.dlOffset))

/-- `process_blocks`: hash the entire blocks of the buffer. Returns the number
    of bytes processed with the new hashes. -/
def processBlocks (job : ScanJob) (h : Xxh Digest) (off : Nat) (buffer : Buffer)
    (hashes : Hashes Digest) : Nat × Hashes Digest :=
  let nbBlocks := buffer.dlLen / job.blocksize
  if !job.options.doBlockHash || buffer.faked then
    (buffer.dlLen, hashes)
  else
    (nbBlocks * job.blocksize,
      (List.range nbBlocks).foldl (fun hashes i =>
        let fileOff := off + i * job.blocksize
        if isBlockHashed job buffer fileOff then
          processBlock h ((buffer.buf.drop (i * job.blocksize)).take job.blocksize) fileOff hashes
        else hashes) hashes)

-- ---------------------------------------------------------------------------
-- Extents
-- ---------------------------------------------------------------------------

/-- The local variables of `process_extents`, with the two parts of the context
    that it changes. -/
structure ExtentWalk (Digest : Type) where
  fileOff : Nat
  bufOff : Nat
  extentCsum : Option RunningChecksum
  extents : List (ExtentCsum Digest)
  deriving DecidableEq, Repr

def storeExtent (h : Xxh Digest) (e : FiemapExtent) (w : ExtentWalk Digest) : ExtentWalk Digest :=
  if e.isSkipped then
    { w with extents := w.extents ++ [⟨0, 0, 0, none⟩] }
  else
    { w with
      extents := w.extents ++
        [⟨e.feLogical, e.fePhysical, e.feLength, w.extentCsum.map (finishRunningChecksum h)⟩]
      extentCsum := none }

/-- How `process_extents` ends. -/
inductive ExtentsExit where
  | done
  | noExtent
  | assertFailed
  deriving DecidableEq, Repr

/-- The part of the last extent that lies behind the end of the file. The
    subtraction wraps when the extent ends before the file does. -/
def dummyOf (job : ScanJob) (e : FiemapExtent) : Nat :=
  if e.isLast then Word.sub 64 e.feEnd job.filesize else 0

/-- One round of the loop of `process_extents` over `bytes` bytes of the buffer
    at file offset `off`. -/
def extentRound (job : ScanJob) (h : Xxh Digest) (off bytes : Nat) (buf : List Byte)
    (w : ExtentWalk Digest) : Loop.Next (ExtentWalk Digest) (ExtentsExit × ExtentWalk Digest) :=
  if w.fileOff < off + bytes then
    match job.fiemap.getExtent w.fileOff with
    | none => .leave (.noExtent, { w with extentCsum := none })
    | some e =>
      let toAdd := if e.feEnd > off + bytes then bytes - w.bufOff else e.feEnd - w.fileOff
      let csum :=
        if e.isSkipped then w.extentCsum
        else some (addToRunningChecksum (w.extentCsum.getD startRunningChecksum)
          ((buf.drop w.bufOff).take toAdd))
      if w.fileOff + toAdd ≤ off + bytes then
        let w' : ExtentWalk Digest :=
          { w with
            fileOff := w.fileOff + toAdd
            bufOff := w.bufOff + toAdd
            extentCsum := csum }
        if Word.wrap 64 (w'.fileOff + dummyOf job e) = e.feEnd then .again (storeExtent h e w')
        else .again w'
      else .leave (.assertFailed, w)
  else .leave (.done, w)

def processExtents (job : ScanJob) (h : Xxh Digest) (s : ScanState Digest) (bytes : Nat) :
    Option (ExtentsExit × ExtentWalk Digest) :=
  Loop.run (extentRound job h s.off bytes s.buffer.buf) (bytes + 1)
    ⟨s.off, 0, s.extentCsum, s.hashes.extents⟩

-- ---------------------------------------------------------------------------
-- Reading
-- ---------------------------------------------------------------------------

/-- The sign of the return value of `fill_buffer`. -/
inductive FillRet where
  | error
  | eof
  | more
  deriving DecidableEq, Repr

/-- Move the leftovers back to the beginning of the buffer. -/
def Buffer.moveLeftovers (b : Buffer) : Buffer :=
  { b with
    buf :=
      if b.dlLen = 0 then b.buf
      else (b.buf.drop b.dlOffset).take b.dlLen ++ b.buf.drop b.dlLen
    dlOffset := 0
    faked := false }

/-- The kernel writes `bytes` behind the unprocessed data. -/
def Buffer.receive (b : Buffer) (bytes : List Byte) : Buffer :=
  { b with
    buf := b.buf.take b.dlLen ++ bytes ++ b.buf.drop (b.dlLen + bytes.length)
    dlLen := b.dlLen + bytes.length }

/-- The reading branch of `fill_buffer`; `none` is a failed assertion. -/
def fillFromFile (job : ScanJob) (off reads : Nat) (buffer : Buffer) :
    Option (FillRet × Buffer × Nat) :=
  let moved := buffer.moveLeftovers
  match job.pread reads (moved.size - moved.dlLen) (off + moved.dlLen) with
  | none =>
    if moved.dlOffset + moved.dlLen ≤ moved.size then some (.error, moved, reads + 1) else none
  | some bytes =>
    let filled := moved.receive bytes
    if filled.dlOffset + filled.dlLen ≤ filled.size then
      if bytes = [] ∨ off + filled.dlLen = job.filesize then some (.eof, filled, reads + 1)
      else some (.more, filled, reads + 1)
    else none

/-- Whether `fill_buffer` fast-forwards over the next buffer. -/
def isFastForwarded (job : ScanJob) (off size : Nat) : Bool :=
  isAreaIgnored job.fiemap off size && decide (off + size ≤ job.filesize)

/-- A zeroed buffer that stands for the next `size` bytes of the file. -/
def Buffer.fakeFill (b : Buffer) : Buffer :=
  { b with
    buf := List.replicate b.size 0
    dlLen := b.size
    dlOffset := 0
    faked := true }

def fillBuffer (job : ScanJob) (off reads : Nat) (buffer : Buffer) :
    Option (FillRet × Buffer × Nat) :=
  if isFastForwarded job off buffer.size then
    if job.filesize ≤ off + buffer.size then some (.eof, buffer.fakeFill, reads)
    else some (.more, buffer.fakeFill, reads)
  else fillFromFile job off reads buffer

-- ---------------------------------------------------------------------------
-- The main loop
-- ---------------------------------------------------------------------------

/-- How the main loop of `csum_whole_file` ends. `finished` and `noExtent` go on
    to the check of the file size, and nothing follows the others. `outOfFuel`
    is not an exit of the program: it says that the bound of the extent loop was
    met. -/
inductive ScanExit where
  | finished
  | noExtent
  | readError
  | assertFailed
  | outOfFuel
  deriving DecidableEq, Repr

/-- A way to fill the buffer, the only part of the loop that talks to the
    kernel. -/
abbrev Filler := ScanJob → Nat → Nat → Buffer → Option (FillRet × Buffer × Nat)

/-- Process the blocks of the filled buffer, and at the end of the file the last
    partial block too. -/
def hashBlocks (job : ScanJob) (h : Xxh Digest) (s : ScanState Digest) : Nat × ScanState Digest :=
  let (bytes, hashes) := processBlocks job h s.off s.buffer s.hashes
  let s := { s with
    hashes := hashes
    fileScannedBytes := s.fileScannedBytes + bytes
    totalScannedBytes := s.totalScannedBytes + bytes }
  if s.eofReached ∧ bytes < s.buffer.dlLen then
    let tail := (s.buffer.buf.drop bytes).take (s.buffer.dlLen - bytes)
    (s.buffer.dlLen, { s with hashes := processBlock h tail (s.off + bytes) s.hashes })
  else (bytes, s)

/-- Acknowledge the processed bytes. -/
def advance (s : ScanState Digest) (bytes : Nat) : ScanState Digest :=
  { s with
    buffer := { s.buffer with dlOffset := bytes, dlLen := s.buffer.dlLen - bytes }
    off := s.off + bytes }

/-- The consumers of one filled buffer, in the order of the source: blocks, file
    checksum, extents. -/
def consumeBuffer (job : ScanJob) (h : Xxh Digest) (s : ScanState Digest) :
    Loop.Next (ScanState Digest) (ScanExit × ScanState Digest) :=
  let (bytes, s) := hashBlocks job h s
  let s := { s with fileCsum := addToRunningChecksum s.fileCsum (s.buffer.buf.take bytes) }
  let leave (s : ScanState Digest) :
      Loop.Next (ScanState Digest) (ScanExit × ScanState Digest) :=
    if s.eofReached then .leave (.finished, advance s bytes) else .again (advance s bytes)
  if job.options.onlyWholeFiles then leave s
  else
    match processExtents job h s bytes with
    | none => .leave (.outOfFuel, s)
    | some (exit, w) =>
      let s := { s with
        extentCsum := w.extentCsum
        hashes := { s.hashes with extents := w.extents } }
      match exit with
      | .done => leave s
      | .noExtent => .leave (.noExtent, s)
      | .assertFailed => .leave (.assertFailed, s)

/-- One round of the main loop. -/
def scanRound (fill : Filler) (job : ScanJob) (h : Xxh Digest) (s : ScanState Digest) :
    Loop.Next (ScanState Digest) (ScanExit × ScanState Digest) :=
  if s.off < job.filesize then
    match fill job s.off s.reads s.buffer with
    | none => .leave (.assertFailed, s)
    | some (ret, buffer, reads) =>
      let s := { s with buffer := buffer, reads := reads }
      match ret with
      | .error => .leave (.readError, s)
      | .eof => consumeBuffer job h { s with eofReached := true }
      | .more => consumeBuffer job h s
  else .leave (.finished, s)

/-- The memory that `prepare_buffer` allocated for a thread. It may still hold
    bytes of another file. -/
structure ThreadBuffer where
  buf : List Byte
  faked : Bool
  length_buf : buf.length = readBufLen

/-- The buffer of a thread that has scanned nothing yet. -/
def ThreadBuffer.fresh : ThreadBuffer where
  buf := List.replicate readBufLen 0
  faked := false
  length_buf := List.length_replicate

/-- The state in front of the main loop, with the leftovers of another call
    dropped. -/
def scanStart (buffer : ThreadBuffer) : ScanState Digest where
  off := 0
  fileCsum := startRunningChecksum
  extentCsum := none
  buffer := ⟨buffer.buf, readBufLen, 0, 0, buffer.faked⟩
  hashes := ⟨[], []⟩
  eofReached := false
  reads := 0
  fileScannedBytes := 0
  totalScannedBytes := 0

/-- The main loop. Every round reads at least one byte or is the last one, so
    the bound is never met. -/
def scanLoop (fill : Filler) (job : ScanJob) (h : Xxh Digest) (buffer : ThreadBuffer) :
    Option (ScanExit × ScanState Digest) :=
  Loop.run (scanRound fill job h) (job.filesize + job.blocksize + 1) (scanStart buffer)

-- ---------------------------------------------------------------------------
-- What is committed
-- ---------------------------------------------------------------------------

/-- The flag of a file whose last byte lies in an inline extent. -/
def isInlined (job : ScanJob) : Bool :=
  match job.fiemap.getExtent (job.filesize - 1) with
  | none => false
  | some e => e.hasFlags fiemapExtentDataInline

/-- The arguments of the database calls of one successful scan. An empty list
    stands for a call that is not made. -/
structure ScanCommit (Digest : Type) where
  digest : Digest
  blocks : List (BlockCsum Digest)
  extents : List (ExtentCsum Digest)
  flags : Nat
  deriving DecidableEq, Repr

/-- The part of `csum_whole_file` behind the loop: give up when the file
    changed, else hand the hashes to the database. -/
def commitOf (job : ScanJob) (h : Xxh Digest) (exit : ScanExit) (s : ScanState Digest) :
    Option (ScanCommit Digest) :=
  match exit with
  | .readError | .assertFailed | .outOfFuel => none
  | .finished | .noExtent =>
    if s.off ≠ job.filesize then none
    else some
      { digest := finishRunningChecksum h s.fileCsum
        blocks := if isInlined job then [] else s.hashes.blocks
        extents := s.hashes.extents
        flags := if isInlined job then fileInlined else 0 }

/-- `csum_whole_file` with the given way to fill the buffer, up to the
    transaction that stores its result. -/
def csumWholeFileWith (fill : Filler) (job : ScanJob) (h : Xxh Digest) (buffer : ThreadBuffer) :
    Option (ScanCommit Digest) :=
  (scanLoop fill job h buffer).bind fun (exit, s) => commitOf job h exit s

def csumWholeFile (job : ScanJob) (h : Xxh Digest) (buffer : ThreadBuffer) :
    Option (ScanCommit Digest) :=
  csumWholeFileWith fillBuffer job h buffer

end Duperemove
