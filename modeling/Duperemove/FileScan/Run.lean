-- SUMMARY: A whole run of the scan loop on a file that does not change: it ends, and what the consumers got.
import Mathlib.Logic.Function.Iterate
import Duperemove.FileScan.Blocks
import Duperemove.FileScan.Extents
import Duperemove.Lib.Pieces

/-!
# A run of the scan loop

The file `c` does not change and every `pread` returns a piece of it. A run is
then a sequence of visits of `fill_buffer`. A visit either fast-forwards, which
feeds the consumers a zeroed buffer, or reads, which feeds them the next bytes of
the file. `scanRound_spec` says what one round does, `scanLoop_spec` what the
run has fed to the consumers at its end.

Which offsets are fast-forwarded is a parameter `ff` of the whole development,
so that the source and the variant without the fast-forward branch are both
instances of it.
-/

namespace Duperemove

variable {Digest : Type}

/-- Every answer of the kernel inside the file is a nonempty piece of the file at
    the asked offset. -/
def ReadsFile (job : ScanJob) (c : List Byte) : Prop :=
  ∀ k count off, 0 < count → off < c.length →
    ∃ n, 0 < n ∧ n ≤ count ∧ off + n ≤ c.length ∧
      job.pread k count off = some ((c.drop off).take n)

theorem minBlocksize_le_page : minBlocksize ≤ 4096 := by decide

theorem page_le_maxBlocksize : 4096 ≤ maxBlocksize := by decide

/-- The scan of a file with content `c` whose reads return at most `most`
    bytes. -/
def ScanJob.ofContent (options : Options) (blocksize : Nat) (fiemap : Fiemap) (c : List Byte)
    (most : Nat) (hge : minBlocksize ≤ blocksize) (hle : blocksize ≤ maxBlocksize)
    (hpos : 0 < c.length) (hlt : c.length < 2 ^ 63) : ScanJob where
  options := options
  blocksize := blocksize
  filesize := c.length
  fiemap := fiemap
  pread := fun _ count off => some ((c.drop off).take (min count most))
  blocksize_ge := hge
  blocksize_le := hle
  filesize_pos := hpos
  filesize_lt := hlt
  pread_le := by
    intro k count off bytes h
    rw [← Option.some.inj h, List.length_take]
    omega

theorem readsFile_ofContent {options : Options} {blocksize : Nat} {fiemap : Fiemap}
    {c : List Byte} {most : Nat} {hge hle hpos hlt} (hmost : 0 < most) :
    ReadsFile (.ofContent options blocksize fiemap c most hge hle hpos hlt) c := by
  intro k count off hcount hoff
  refine ⟨min (min count most) (c.length - off), by omega, by omega, by omega, ?_⟩
  simp only [ScanJob.ofContent, Option.some.injEq]
  rw [List.take_eq_take_iff, List.length_drop]
  omega

-- ---------------------------------------------------------------------------
-- The consumers of one buffer
-- ---------------------------------------------------------------------------

/-- The state after the consumers of a filled buffer took `bytes` bytes. -/
structure Consumed (job : ScanJob) (h : Xxh Digest) (s : ScanState Digest) (bytes : Nat)
    (s' : ScanState Digest) : Prop where
  off : s'.off = s.off + bytes
  reads : s'.reads = s.reads
  eof : s'.eofReached = s.eofReached
  buffer : s'.buffer = { s.buffer with dlOffset := bytes, dlLen := s.buffer.dlLen - bytes }
  fileCsum : s'.fileCsum.bytes = s.fileCsum.bytes ++ s.buffer.buf.take bytes
  blocks : s'.hashes.blocks =
    s.hashes.blocks ++ bufferRows job h s.off s.eofReached s.buffer
  extents : if job.options.onlyWholeFiles then s'.extentAcc = s.extentAcc
    else extentBytes job h s.off (s.buffer.buf.take bytes) s.extentAcc = some s'.extentAcc

/-- The consumers either take all processed bytes, or stop at a byte without an
    extent. -/
theorem consumeBuffer_spec {job : ScanJob} (h : Xxh Digest) {s : ScanState Digest}
    (hfile : s.off + s.buffer.dlLen ≤ job.filesize)
    (hbuf : s.buffer.dlLen ≤ s.buffer.buf.length) :
    (∃ s', consumeBuffer job h s =
        (if s.eofReached then .leave (.finished, s') else .again s') ∧
      Consumed job h s (processedBytes job s.eofReached s.buffer) s') ∨
    (job.options.onlyWholeFiles = false ∧
      extentBytes job h s.off
        (s.buffer.buf.take (processedBytes job s.eofReached s.buffer)) s.extentAcc = none ∧
      ∃ s', consumeBuffer job h s = .leave (.noExtent, s') ∧ s'.off = s.off) := by
  obtain ⟨scanned, hblocks⟩ := hashBlocks_eq job h s
  have hle := processedBytes_le job s.eofReached s.buffer
  unfold consumeBuffer
  rw [hblocks]
  generalize processedBytes job s.eofReached s.buffer = bytes at *
  cases hwhole : job.options.onlyWholeFiles with
  | true =>
    left
    simp only [if_true]
    exact ⟨_, rfl, rfl, rfl, rfl, rfl, by simp [advance], rfl, by simp [hwhole]; rfl⟩
  | false =>
    simp only [Bool.false_eq_true, if_false]
    -- The state that `process_extents` starts from has the extents of `s`.
    generalize hs₁ : ({ s with
      hashes := { s.hashes with
        blocks := s.hashes.blocks ++ bufferRows job h s.off s.eofReached s.buffer }
      fileScannedBytes := s.fileScannedBytes + scanned
      totalScannedBytes := s.totalScannedBytes + scanned
      fileCsum := addToRunningChecksum s.fileCsum (s.buffer.buf.take bytes) } :
        ScanState Digest) = s₁
    have hacc : s₁.extentAcc = s.extentAcc := by subst hs₁; rfl
    have hoff₁ : s₁.off = s.off := by subst hs₁; rfl
    have hbuf₁ : s₁.buffer = s.buffer := by subst hs₁; rfl
    have hfile₁ : s₁.off + bytes ≤ job.filesize := by
      rw [hoff₁]
      omega
    have hlen₁ : bytes ≤ s₁.buffer.buf.length := by
      rw [hbuf₁]
      omega
    obtain ⟨⟨exit, w⟩, hrun, hpost⟩ := processExtents_eq h hfile₁ hlen₁
    rw [hrun]
    rw [hacc, hoff₁, hbuf₁] at hpost
    rcases hpost with ⟨rfl, hext⟩ | ⟨rfl, hext⟩
    · left
      refine ⟨_, rfl, ?_⟩
      subst hs₁
      exact ⟨rfl, rfl, rfl, rfl, by simp [advance], rfl, by
        simpa [hwhole, ScanState.extentAcc, ExtentWalk.acc, advance] using hext⟩
    · right
      exact ⟨trivial, hext, _, rfl, by subst hs₁; rfl⟩

-- ---------------------------------------------------------------------------
-- Visits
-- ---------------------------------------------------------------------------

/-- The control state at a call of `fill_buffer`: the file offset, the number of
    unprocessed bytes in the buffer, and the number of reads so far. -/
structure Visit where
  off : Nat
  dlLen : Nat
  reads : Nat
  deriving DecidableEq, Repr

def ScanState.visit (s : ScanState Digest) : Visit := ⟨s.off, s.buffer.dlLen, s.reads⟩

namespace Visit

/-- The number of bytes in the buffer after a read. -/
def filled (job : ScanJob) (v : Visit) : Nat :=
  v.dlLen + ((job.pread v.reads (readBufLen - v.dlLen) (v.off + v.dlLen)).getD []).length

/-- The number of bytes that a read hands on. -/
def readBytes (job : ScanJob) (v : Visit) : Nat :=
  if job.options.doBlockHash ∧ v.off + v.filled job ≠ job.filesize then
    v.filled job / job.blocksize * job.blocksize
  else v.filled job

/-- The next visit; `ff` says which offsets are fast-forwarded. -/
def next (job : ScanJob) (ff : Nat → Bool) (v : Visit) : Visit :=
  if ff v.off then ⟨v.off + readBufLen, 0, v.reads⟩
  else ⟨v.off + v.readBytes job, v.filled job - v.readBytes job, v.reads + 1⟩

/-- The bytes that a visit feeds to the file checksum and to the extents. -/
def bytes (job : ScanJob) (ff : Nat → Bool) (c : List Byte) (v : Visit) : List Byte :=
  if ff v.off then List.replicate readBufLen 0 else (c.drop v.off).take (v.readBytes job)

/-- The block rows that a visit adds. -/
def rows (job : ScanJob) (ff : Nat → Bool) (h : Xxh Digest) (c : List Byte) (v : Visit) :
    List (BlockCsum Digest) :=
  if ff v.off then []
  else if job.options.doBlockHash then blockRows job h c v.off (v.readBytes job)
  else []

end Visit

/-- The `n`-th visit of a run. -/
def visit (job : ScanJob) (ff : Nat → Bool) (n : Nat) : Visit :=
  (Visit.next job ff)^[n] ⟨0, 0, 0⟩

/-- The bytes fed by the first `n` visits. -/
def seenBytes (job : ScanJob) (ff : Nat → Bool) (c : List Byte) (n : Nat) : List Byte :=
  Pieces.upTo (fun k => (visit job ff k).bytes job ff c) n

/-- The block rows added by the first `n` visits. -/
def seenRows (job : ScanJob) (ff : Nat → Bool) (h : Xxh Digest) (c : List Byte) (n : Nat) :
    List (BlockCsum Digest) :=
  Pieces.upTo (fun k => (visit job ff k).rows job ff h c) n

theorem visit_succ (job : ScanJob) (ff : Nat → Bool) (n : Nat) :
    visit job ff (n + 1) = (visit job ff n).next job ff :=
  Function.iterate_succ_apply' _ _ _

theorem seenBytes_succ (job : ScanJob) (ff : Nat → Bool) (c : List Byte) (n : Nat) :
    seenBytes job ff c (n + 1) = seenBytes job ff c n ++ (visit job ff n).bytes job ff c :=
  Pieces.upTo_succ _ _

theorem seenRows_succ (job : ScanJob) (ff : Nat → Bool) (h : Xxh Digest) (c : List Byte)
    (n : Nat) :
    seenRows job ff h c (n + 1) = seenRows job ff h c n ++ (visit job ff n).rows job ff h c :=
  Pieces.upTo_succ _ _

-- ---------------------------------------------------------------------------
-- One round
-- ---------------------------------------------------------------------------

/-- What the consumers have got so far: the bytes `seen` and the rows `rows`. The
    rows are those of the file only when zeroed blocks are hashed too. -/
structure Fed (job : ScanJob) (h : Xxh Digest) (seen : List Byte)
    (rows : List (BlockCsum Digest)) (s : ScanState Digest) : Prop where
  bytes : s.fileCsum.bytes = seen
  length : seen.length = s.off
  blocks : job.options.skipZeroes = false → s.hashes.blocks = rows
  extents : if job.options.onlyWholeFiles then s.extentAcc = ⟨none, []⟩
    else extentBytes job h 0 seen ⟨none, []⟩ = some s.extentAcc

/-- The state at the head of the loop when another round follows: the buffer
    holds the leftovers of the file at the current offset, less than a block of
    them, and the file goes on behind them. -/
structure Ready (job : ScanJob) (c : List Byte) (s : ScanState Digest) : Prop where
  eof : s.eofReached = false
  size : s.buffer.size = readBufLen
  length : s.buffer.buf.length = readBufLen
  inBuf : s.buffer.dlOffset + s.buffer.dlLen ≤ readBufLen
  partialBlock : s.buffer.dlLen < job.blocksize
  inFile : s.off + s.buffer.dlLen < job.filesize
  leftovers : (s.buffer.buf.drop s.buffer.dlOffset).take s.buffer.dlLen =
    (c.drop s.off).take s.buffer.dlLen

section Round

variable {job : ScanJob} {h : Xxh Digest} {c : List Byte} {ff : Nat → Bool} {fill : Filler}

/-- A way to fill the buffer that fast-forwards at the offsets `ff`, all of them
    at least a buffer before the end of the file, and reads elsewhere. -/
structure FillsWith (fill : Filler) (job : ScanJob) (ff : Nat → Bool) : Prop where
  fast : ∀ off reads buffer, buffer.size = readBufLen → ff off = true →
    fill job off reads buffer =
      if job.filesize ≤ off + readBufLen then some (.eof, buffer.fakeFill, reads)
      else some (.more, buffer.fakeFill, reads)
  slow : ∀ off reads buffer, buffer.size = readBufLen → ff off = false →
    fill job off reads buffer = fillFromFile job off reads buffer
  inFile : ∀ off, ff off = true → off + readBufLen ≤ job.filesize

theorem fillsWith_fillBuffer (job : ScanJob) :
    FillsWith fillBuffer job fun off => isFastForwarded job off readBufLen where
  fast off reads buffer hsize hff := by simp [fillBuffer, hsize, hff]
  slow off reads buffer hsize hff := by simp [fillBuffer, hsize, hff]
  inFile off hff := by
    simp only [isFastForwarded, Bool.and_eq_true, decide_eq_true_eq] at hff
    exact hff.2

theorem fillsWith_fillFromFile (job : ScanJob) : FillsWith fillFromFile job fun _ => false where
  fast off reads buffer hsize hff := by cases hff
  slow off reads buffer hsize hff := rfl
  inFile off hff := by cases hff

/-- The outcome of a round at a visit. -/
def RoundPost (job : ScanJob) (ff : Nat → Bool) (h : Xxh Digest) (c seen : List Byte)
    (rows : List (BlockCsum Digest)) (s : ScanState Digest)
    (r : Loop.Next (ScanState Digest) (ScanExit × ScanState Digest)) : Prop :=
  (∃ s', r = (if (s.visit.next job ff).off = job.filesize then .leave (.finished, s')
        else .again s') ∧
      s'.visit = s.visit.next job ff ∧ s.off + s.buffer.dlLen < s'.off + s'.buffer.dlLen ∧
      Fed job h (seen ++ s.visit.bytes job ff c) (rows ++ s.visit.rows job ff h c) s' ∧
      ((s.visit.next job ff).off ≠ job.filesize → Ready job c s')) ∨
    (job.options.onlyWholeFiles = false ∧
      job.fiemap.getExtent (job.filesize - 1) = none ∧
      ∃ s', r = .leave (.noExtent, s') ∧ s'.off < job.filesize)

/-- From a filled buffer to the outcome of the round. The buffer holds `given`
    from its start on, and its rows are `new`. -/
theorem consumeBuffer_post {seen : List Byte} {rows : List (BlockCsum Digest)}
    {s : ScanState Digest} (filled : ScanState Digest) (given : List Byte)
    (new : List (BlockCsum Digest)) (hfed : Fed job h seen rows s)
    (hoff : filled.off = s.off) (hcsum : filled.fileCsum = s.fileCsum)
    (hhashes : filled.hashes = s.hashes) (hext : filled.extentCsum = s.extentCsum)
    (hlt : s.off < job.filesize)
    (hfile : s.off + filled.buffer.dlLen ≤ job.filesize)
    (hbuf : filled.buffer.dlLen ≤ filled.buffer.buf.length)
    (hgiven : filled.buffer.buf.take
      (processedBytes job filled.eofReached filled.buffer) = given)
    (hnew : job.options.skipZeroes = false →
      bufferRows job h s.off filled.eofReached filled.buffer = new)
    {v : Visit} (hv : v = ⟨s.off + processedBytes job filled.eofReached filled.buffer,
      filled.buffer.dlLen - processedBytes job filled.eofReached filled.buffer, filled.reads⟩)
    (heof : filled.eofReached = decide (v.off = job.filesize)) :
    (∃ s', consumeBuffer job h filled =
        (if v.off = job.filesize then .leave (.finished, s') else .again s') ∧
      s'.visit = v ∧ Fed job h (seen ++ given) (rows ++ new) s' ∧
      s'.eofReached = filled.eofReached ∧
      s'.buffer = { filled.buffer with
        dlOffset := processedBytes job filled.eofReached filled.buffer
        dlLen := filled.buffer.dlLen -
          processedBytes job filled.eofReached filled.buffer }) ∨
    (job.options.onlyWholeFiles = false ∧
      job.fiemap.getExtent (job.filesize - 1) = none ∧
      ∃ s', consumeBuffer job h filled = .leave (.noExtent, s') ∧ s'.off < job.filesize) := by
  have hacc : filled.extentAcc = s.extentAcc := by
    simp only [ScanState.extentAcc, hext, hhashes]
  have hle := processedBytes_le job filled.eofReached filled.buffer
  have hlength : given.length = processedBytes job filled.eofReached filled.buffer := by
    rw [← hgiven, List.length_take]
    omega
  have hfile' : filled.off + filled.buffer.dlLen ≤ job.filesize := by omega
  rcases consumeBuffer_spec h hfile' hbuf with
    ⟨s', hrun, hcons⟩ | ⟨hwhole, hnone, s', hrun, hoff'⟩
  · left
    refine ⟨s', ?_, ?_, ⟨?_, ?_, ?_, ?_⟩, hcons.eof, hcons.buffer⟩
    · rw [hrun, heof]
      by_cases hend : v.off = job.filesize <;> simp [hend]
    · rw [hv, ScanState.visit, hcons.off, hcons.reads, hcons.buffer, hoff]
    · rw [hcons.fileCsum, hcsum, hfed.bytes, hgiven]
    · rw [List.length_append, hlength, hfed.length, hcons.off, hoff]
    · intro hzero
      rw [hcons.blocks, hhashes, hfed.blocks hzero, hoff, hnew hzero]
    · have hold := hfed.extents
      have hnow := hcons.extents
      rw [hacc, hgiven, hoff] at hnow
      cases hwhole : job.options.onlyWholeFiles with
      | true =>
        simp only [hwhole, if_true] at hold hnow ⊢
        rw [hnow, hold]
      | false =>
        simp only [hwhole, Bool.false_eq_true, if_false] at hold hnow ⊢
        rw [extentBytes_append, hold, hfed.length, Nat.zero_add]
        exact hnow
  · right
    refine ⟨hwhole, ?_, s', hrun, by omega⟩
    rw [extentBytes_eq_none_iff] at hnone
    obtain ⟨o, _, ho, hnone⟩ := hnone
    rw [hgiven, hlength] at ho
    rw [Fiemap.getExtent_eq_none_iff] at hnone ⊢
    intro e he
    have := hnone e he
    omega

/-- A visit that fast-forwards. -/
theorem scanRound_fast {seen : List Byte} {rows : List (BlockCsum Digest)}
    {s : ScanState Digest} (hfill : FillsWith fill job ff) (hs : Ready job c s)
    (hfed : Fed job h seen rows s) (hff : ff s.off = true) :
    RoundPost job ff h c seen rows s (scanRound fill job h s) := by
  have hlt : s.off < job.filesize := Nat.lt_of_le_of_lt (Nat.le_add_right _ _) hs.inFile
  have hin := hfill.inFile s.off hff
  let filled : ScanState Digest := { s with
    buffer := s.buffer.fakeFill
    eofReached := decide (s.off + readBufLen = job.filesize) }
  have hround : scanRound fill job h s = consumeBuffer job h filled := by
    simp only [scanRound, hlt, if_true, hfill.fast _ _ _ hs.size hff]
    by_cases hend : s.off + readBufLen = job.filesize
    · simp [hend, filled]
    · have hmore : ¬ job.filesize ≤ s.off + readBufLen := by omega
      simp [hend, hmore, filled, hs.eof]
  have hdl : filled.buffer.dlLen = readBufLen := hs.size
  have hprocessed : processedBytes job filled.eofReached filled.buffer = readBufLen := by
    simp [processedBytes, cutsBlocks, filled, Buffer.fakeFill, hs.size]
  have hnext : s.visit.next job ff = ⟨s.off + readBufLen, 0, s.reads⟩ := by
    simp [Visit.next, ScanState.visit, hff]
  have hbytes : s.visit.bytes job ff c = List.replicate readBufLen 0 := by
    simp [Visit.bytes, ScanState.visit, hff]
  have hrows : s.visit.rows job ff h c = [] := by
    simp [Visit.rows, ScanState.visit, hff]
  rw [hround, RoundPost, hnext, hbytes, hrows]
  have hpost := consumeBuffer_post (v := ⟨s.off + readBufLen, 0, s.reads⟩) filled
    (List.replicate readBufLen 0) [] hfed rfl rfl rfl rfl hlt
    (by rw [hdl]; exact hin) (by simp [filled, Buffer.fakeFill])
    (by rw [hprocessed]; simp [filled, Buffer.fakeFill, hs.size])
    (fun _ => by simp [bufferRows, cutsBlocks, filled, Buffer.fakeFill])
    (by rw [hprocessed, hdl, Nat.sub_self]) rfl
  rcases hpost with ⟨s', hrun, hvisit, hfed', heof', hbuf'⟩ | hnone
  · have hoff' : s'.off = s.off + readBufLen := congrArg Visit.off hvisit
    have hdl' : s'.buffer.dlLen = 0 := congrArg Visit.dlLen hvisit
    have hpart := hs.partialBlock
    have hblock := job.blocksize_lt_readBufLen
    refine .inl ⟨s', hrun, hvisit, by omega, hfed', fun hne => ?_⟩
    rw [hprocessed, hdl, Nat.sub_self] at hbuf'
    refine ⟨?_, ?_, ?_, ?_, ?_, ?_, ?_⟩
    · rw [heof']
      exact decide_eq_false hne
    · rw [hbuf']
      exact hs.size
    · rw [hbuf']
      simp [filled, Buffer.fakeFill, hs.size]
    · rw [hbuf']
      exact Nat.le_refl _
    · rw [hdl']
      exact job.blocksize_pos
    · simp only at hne
      omega
    · rw [hdl', List.take_zero, List.take_zero]
  · exact .inr hnone

/-- What a read at a loop head leaves in the buffer: the next bytes of the file. -/
structure ReadInto (job : ScanJob) (c : List Byte) (s : ScanState Digest) (buffer : Buffer) :
    Prop where
  dlLen : buffer.dlLen = s.visit.filled job
  more : s.buffer.dlLen < buffer.dlLen
  room : buffer.dlLen ≤ readBufLen
  inFile : s.off + buffer.dlLen ≤ job.filesize
  size : buffer.size = readBufLen
  length : buffer.buf.length = readBufLen
  faked : buffer.faked = false
  dlOffset : buffer.dlOffset = 0
  data : buffer.buf.take buffer.dlLen = (c.drop s.off).take buffer.dlLen

/-- A read at a loop head: it fills the buffer with the next bytes of the file,
    and it reports the end of the file exactly when it reached it. -/
theorem fillFromFile_spec {s : ScanState Digest} (hlen : c.length = job.filesize)
    (hreads : ReadsFile job c) (hs : Ready job c s) :
    ∃ filled : Buffer,
      fillFromFile job s.off s.reads s.buffer =
        some (if s.off + filled.dlLen = job.filesize then .eof else .more, filled, s.reads + 1) ∧
      ReadInto job c s filled := by
  have hroom := hs.partialBlock
  have hblock := job.blocksize_lt_readBufLen
  have hin := hs.inFile
  obtain ⟨n, hpos, hcount, hfile, hpread⟩ :=
    hreads s.reads (readBufLen - s.buffer.dlLen) (s.off + s.buffer.dlLen) (by omega) (by omega)
  have hgot : ((c.drop (s.off + s.buffer.dlLen)).take n).length = n := by
    simp only [List.length_take, List.length_drop]
    omega
  have hspace : s.buffer.dlLen + ((c.drop (s.off + s.buffer.dlLen)).take n).length ≤
      s.buffer.buf.length := by
    rw [hgot, hs.length]
    omega
  obtain ⟨hbufLen, hdata⟩ := receive_moveLeftovers (by rw [hs.length]; exact hs.inBuf) hspace
  rw [hs.length] at hbufLen
  rw [hgot, hs.leftovers, ← List.drop_drop, ← List.take_add, List.drop_drop] at hdata
  have hmovedDl : s.buffer.moveLeftovers.dlLen = s.buffer.dlLen := rfl
  have hdl : (s.buffer.moveLeftovers.receive ((c.drop (s.off + s.buffer.dlLen)).take n)).dlLen =
      s.buffer.dlLen + n := by
    simp only [Buffer.receive, hmovedDl, hgot]
  have hne : (c.drop (s.off + s.buffer.dlLen)).take n ≠ [] := by
    intro hnil
    rw [hnil] at hgot
    simp at hgot
    omega
  refine ⟨s.buffer.moveLeftovers.receive ((c.drop (s.off + s.buffer.dlLen)).take n),
    ?_, ?_, by omega, by omega, by omega, hs.size, hbufLen, rfl, rfl, by rw [hdl]; exact hdata⟩
  · have hcall : job.pread s.reads (s.buffer.moveLeftovers.size - s.buffer.moveLeftovers.dlLen)
        (s.off + s.buffer.moveLeftovers.dlLen) =
          some ((c.drop (s.off + s.buffer.dlLen)).take n) := by
      rw [hmovedDl, show s.buffer.moveLeftovers.size = readBufLen from hs.size]
      exact hpread
    have hassert : (s.buffer.moveLeftovers.receive
        ((c.drop (s.off + s.buffer.dlLen)).take n)).dlOffset + (s.buffer.dlLen + n) ≤
        (s.buffer.moveLeftovers.receive ((c.drop (s.off + s.buffer.dlLen)).take n)).size := by
      rw [show (s.buffer.moveLeftovers.receive
        ((c.drop (s.off + s.buffer.dlLen)).take n)).size = readBufLen from hs.size]
      simp only [Buffer.receive, Buffer.moveLeftovers]
      omega
    simp only [fillFromFile, hcall, hdl, hassert, if_true, hne, false_or]
    split <;> rfl
  · rw [hdl]
    simp only [Visit.filled, ScanState.visit, hpread, Option.getD_some, hgot]

/-- A buffer that was read is handed on up to the last whole block, and at the end of
    the file completely. -/
theorem processedBytes_read {s : ScanState Digest} {buffer : Buffer}
    (hdl : buffer.dlLen = s.visit.filled job) (hfaked : buffer.faked = false) :
    processedBytes job (decide (s.off + buffer.dlLen = job.filesize)) buffer =
      s.visit.readBytes job := by
  have hcut : cutsBlocks job buffer = job.options.doBlockHash := by simp [cutsBlocks, hfaked]
  simp only [processedBytes, hcut, Visit.readBytes, ← hdl]
  by_cases hend : s.off + buffer.dlLen = job.filesize <;>
    cases job.options.doBlockHash <;> simp [hend, ScanState.visit]

/-- What is handed on reaches the end of the file when the read did. -/
theorem readBytes_end_iff {s : ScanState Digest} {buffer : Buffer}
    (hdl : buffer.dlLen = s.visit.filled job) (hle : s.visit.readBytes job ≤ buffer.dlLen)
    (hfile : s.off + buffer.dlLen ≤ job.filesize) :
    s.off + buffer.dlLen = job.filesize ↔ s.off + s.visit.readBytes job = job.filesize := by
  constructor
  · intro heq
    have hall : s.visit.readBytes job = buffer.dlLen := by
      simp only [Visit.readBytes, ← hdl]
      exact if_neg fun hcut => hcut.2 heq
    rw [hall]
    exact heq
  · intro heq
    omega

/-- The bytes of the visit are those at the start of the buffer. -/
theorem bytes_read {s : ScanState Digest} {buffer : Buffer} (hff : ff s.off = false)
    (hle : s.visit.readBytes job ≤ buffer.dlLen)
    (hdata : buffer.buf.take buffer.dlLen = (c.drop s.off).take buffer.dlLen) :
    s.visit.bytes job ff c = buffer.buf.take (s.visit.readBytes job) := by
  have htake : buffer.buf.take (s.visit.readBytes job) =
      (buffer.buf.take buffer.dlLen).take (s.visit.readBytes job) := by
    rw [List.take_take]
    congr 1
    omega
  rw [htake, hdata, List.take_take]
  simp only [Visit.bytes, ScanState.visit, hff, Bool.false_eq_true, if_false]
  congr 1
  simp only [ScanState.visit] at hle
  omega

/-- The rows of the visit are those of the buffer. -/
theorem rows_read {s : ScanState Digest} {buffer : Buffer} (hlen : c.length = job.filesize)
    (hff : ff s.off = false) (hdl : buffer.dlLen = s.visit.filled job)
    (hfaked : buffer.faked = false) (hfile : s.off + buffer.dlLen ≤ job.filesize)
    (hdata : buffer.buf.take buffer.dlLen = (c.drop s.off).take buffer.dlLen)
    (hzero : job.options.skipZeroes = false) :
    bufferRows job h s.off (decide (s.off + buffer.dlLen = job.filesize)) buffer =
      s.visit.rows job ff h c := by
  have hcut : cutsBlocks job buffer = job.options.doBlockHash := by simp [cutsBlocks, hfaked]
  cases hblock : job.options.doBlockHash with
  | false => simp [bufferRows, hcut, Visit.rows, ScanState.visit, hff, hblock]
  | true =>
    rw [bufferRows_eq (c := c) hzero hlen hdata hfile (by rw [hcut, hblock]),
      processedBytes_read hdl hfaked]
    simp [Visit.rows, ScanState.visit, hff, hblock]

/-- The state in front of the consumers after a read. -/
def ScanState.withBuffer (job : ScanJob) (s : ScanState Digest) (buffer : Buffer) :
    ScanState Digest :=
  { s with
    buffer := buffer
    reads := s.reads + 1
    eofReached := decide (s.off + buffer.dlLen = job.filesize) }

/-- A round that reads hands the filled buffer to the consumers. -/
theorem scanRound_reads {s : ScanState Digest} (hlen : c.length = job.filesize)
    (hreads : ReadsFile job c) (hfill : FillsWith fill job ff) (hs : Ready job c s)
    (hff : ff s.off = false) :
    ∃ buffer, scanRound fill job h s = consumeBuffer job h (s.withBuffer job buffer) ∧
      ReadInto job c s buffer := by
  have hlt : s.off < job.filesize := Nat.lt_of_le_of_lt (Nat.le_add_right _ _) hs.inFile
  obtain ⟨buffer, hcall, hread⟩ := fillFromFile_spec hlen hreads hs
  refine ⟨buffer, ?_, hread⟩
  simp only [scanRound, hlt, if_true, hfill.slow _ _ _ hs.size hff, hcall]
  by_cases hend : s.off + buffer.dlLen = job.filesize
  · simp [hend, ScanState.withBuffer]
  · simp [hend, ScanState.withBuffer, hs.eof]

/-- A visit that reads. -/
theorem scanRound_slow {seen : List Byte} {rows : List (BlockCsum Digest)}
    {s : ScanState Digest} (hlen : c.length = job.filesize) (hreads : ReadsFile job c)
    (hfill : FillsWith fill job ff) (hs : Ready job c s)
    (hfed : Fed job h seen rows s) (hff : ff s.off = false) :
    RoundPost job ff h c seen rows s (scanRound fill job h s) := by
  have hlt : s.off < job.filesize := Nat.lt_of_le_of_lt (Nat.le_add_right _ _) hs.inFile
  obtain ⟨buffer, hround, hdl, hmore, hroom, hfile, hsize, hbufLen, hfaked, -, hdata⟩ :=
    scanRound_reads (h := h) hlen hreads hfill hs hff
  have hprocessed : processedBytes job (decide (s.off + buffer.dlLen = job.filesize)) buffer =
      s.visit.readBytes job := processedBytes_read hdl hfaked
  have hnext : s.visit.next job ff =
      ⟨s.off + s.visit.readBytes job, buffer.dlLen - s.visit.readBytes job, s.reads + 1⟩ := by
    simp only [Visit.next, hdl]
    simp [ScanState.visit, hff]
  have hle : s.visit.readBytes job ≤ buffer.dlLen := by
    rw [← hprocessed]
    exact processedBytes_le job _ buffer
  -- What is left over is less than a block, and nothing at the end of the file.
  have hleft : buffer.dlLen - s.visit.readBytes job < job.blocksize := by
    rw [← hprocessed]
    exact leftover_lt job _ buffer
  have hend := readBytes_end_iff hdl hle hfile
  have hroom' : buffer.dlLen ≤ buffer.buf.length := by
    rw [hbufLen]
    exact hroom
  rw [hround, RoundPost, hnext, bytes_read hff hle hdata]
  have hpost := consumeBuffer_post
    (v := ⟨s.off + s.visit.readBytes job, buffer.dlLen - s.visit.readBytes job, s.reads + 1⟩)
    (s.withBuffer job buffer) (buffer.buf.take (s.visit.readBytes job))
    (s.visit.rows job ff h c) hfed rfl rfl rfl rfl hlt hfile hroom'
    (congrArg buffer.buf.take hprocessed) (rows_read hlen hff hdl hfaked hfile hdata)
    (by rw [← hprocessed]; rfl) (by simp only [ScanState.withBuffer, hend])
  rcases hpost with ⟨s', hrun, hvisit, hfed', heof', hbuf'⟩ | hnone
  · have hoff' : s'.off = s.off + s.visit.readBytes job := congrArg Visit.off hvisit
    have hdl' : s'.buffer.dlLen = buffer.dlLen - s.visit.readBytes job :=
      congrArg Visit.dlLen hvisit
    refine .inl ⟨s', hrun, hvisit, by omega, hfed', fun hne => ?_⟩
    have hdlOffset : s'.buffer.dlOffset = s.visit.readBytes job := by
      rw [hbuf', ← hprocessed]
      rfl
    have hbuf : s'.buffer.buf = buffer.buf := by
      rw [hbuf']
      rfl
    have hopen : s.off + buffer.dlLen ≠ job.filesize := fun heq => hne (hend.1 heq)
    refine ⟨?_, by rw [hbuf']; exact hsize, by rw [hbuf]; exact hbufLen, by omega, by omega,
      by omega, ?_⟩
    · rw [heof']
      exact decide_eq_false hopen
    · rw [hbuf, hdlOffset, hdl', hoff']
      exact bufferBlock_eq hdata (by omega)
  · exact .inr hnone

/-- One round of the loop at a visit. -/
theorem scanRound_spec {seen : List Byte} {rows : List (BlockCsum Digest)}
    {s : ScanState Digest} (hlen : c.length = job.filesize) (hreads : ReadsFile job c)
    (hfill : FillsWith fill job ff) (hs : Ready job c s) (hfed : Fed job h seen rows s) :
    RoundPost job ff h c seen rows s (scanRound fill job h s) := by
  cases hff : ff s.off with
  | true => exact scanRound_fast hfill hs hfed hff
  | false => exact scanRound_slow hlen hreads hfill hs hfed hff

-- ---------------------------------------------------------------------------
-- The whole run
-- ---------------------------------------------------------------------------

theorem scanStart_ready (buffer : ThreadBuffer) :
    Ready job c (scanStart buffer : ScanState Digest) where
  eof := rfl
  size := rfl
  length := buffer.length_buf
  inBuf := Nat.zero_le _
  partialBlock := job.blocksize_pos
  inFile := job.filesize_pos
  leftovers := rfl

theorem scanStart_fed (buffer : ThreadBuffer) :
    Fed job h [] [] (scanStart buffer : ScanState Digest) where
  bytes := rfl
  length := rfl
  blocks := fun _ => rfl
  extents := by
    split <;> rfl

/-- The invariant of the loop: the run has made some number of visits, and the
    consumers got what these visits feed. -/
def RunInv (job : ScanJob) (ff : Nat → Bool) (h : Xxh Digest) (c : List Byte)
    (s : ScanState Digest) : Prop :=
  ∃ n, s.visit = visit job ff n ∧ (∀ k < n, (visit job ff k).off < job.filesize) ∧
    Ready job c s ∧ Fed job h (seenBytes job ff c n) (seenRows job ff h c n) s

/-- How a run ends: at the end of the file with every byte consumed, or, when
    the map has no extent for the last byte, at a byte without an extent. -/
def RunPost (job : ScanJob) (ff : Nat → Bool) (h : Xxh Digest) (c : List Byte)
    (r : ScanExit × ScanState Digest) : Prop :=
  (r.1 = .finished ∧ r.2.off = job.filesize ∧
      ∃ n, (visit job ff n).off = job.filesize ∧
        (∀ k < n, (visit job ff k).off < job.filesize) ∧
        Fed job h (seenBytes job ff c n) (seenRows job ff h c n) r.2) ∨
    (r.1 = .noExtent ∧ job.options.onlyWholeFiles = false ∧
      job.fiemap.getExtent (job.filesize - 1) = none ∧ r.2.off < job.filesize)

theorem scanRound_run (hlen : c.length = job.filesize) (hreads : ReadsFile job c)
    (hfill : FillsWith fill job ff)
    {s : ScanState Digest} (hs : RunInv job ff h c s) :
    (∃ s', scanRound fill job h s = .again s' ∧ RunInv job ff h c s' ∧
      job.filesize - (s'.off + s'.buffer.dlLen) < job.filesize - (s.off + s.buffer.dlLen)) ∨
    (∃ r, scanRound fill job h s = .leave r ∧ RunPost job ff h c r) := by
  obtain ⟨n, hvisit, hbefore, hready, hfed⟩ := hs
  have hin := hready.inFile
  have hbefore' : ∀ k < n + 1, (visit job ff k).off < job.filesize := by
    intro k hk
    by_cases hkn : k < n
    · exact hbefore k hkn
    · have hk' : k = n := by omega
      subst hk'
      rw [← hvisit]
      exact Nat.lt_of_le_of_lt (Nat.le_add_right _ _) hin
  rcases scanRound_spec hlen hreads hfill hready hfed with
    ⟨s', hround, hvisit', hmore, hfed', hready'⟩ | ⟨hwhole, hnone, s', hround, hoff⟩
  · rw [hvisit, ← visit_succ] at hround hvisit' hready'
    rw [hvisit, ← seenBytes_succ, ← seenRows_succ] at hfed'
    by_cases hend : (visit job ff (n + 1)).off = job.filesize
    · right
      rw [if_pos hend] at hround
      have hoff' : s'.off = job.filesize := by
        rw [← hend, ← hvisit']
        rfl
      exact ⟨_, hround, .inl ⟨rfl, hoff', n + 1, hend, hbefore', hfed'⟩⟩
    · left
      rw [if_neg hend] at hround
      have hin' := (hready' hend).inFile
      exact ⟨s', hround, ⟨n + 1, hvisit', hbefore', hready' hend, hfed'⟩, by omega⟩
  · right
    exact ⟨_, hround, .inr ⟨rfl, hwhole, hnone, hoff⟩⟩

/-- A run of the scan loop ends, whatever the kernel's counts are, and its end
    satisfies `RunPost`. -/
theorem scanLoop_spec (hlen : c.length = job.filesize) (hreads : ReadsFile job c)
    (hfill : FillsWith fill job ff)
    (buffer : ThreadBuffer) :
    ∃ r, scanLoop fill job h buffer = some r ∧ RunPost job ff h c r := by
  refine Loop.run_total (RunInv job ff h c)
    (fun s => job.filesize - (s.off + s.buffer.dlLen)) ?_ _ _ ?_ ?_
  · intro s hs
    exact scanRound_run hlen hreads hfill hs
  · exact ⟨0, rfl, by simp, scanStart_ready buffer, scanStart_fed buffer⟩
  · show job.filesize - (0 + 0) < job.filesize + job.blocksize + 1
    omega

/-- When every byte has an extent or extents are not hashed, the run arrives at
    the end of the file. -/
theorem RunPost.finished {r : ScanExit × ScanState Digest} (hr : RunPost job ff h c r)
    (hext : job.options.onlyWholeFiles = true ∨
      job.fiemap.getExtent (job.filesize - 1) ≠ none) :
    r.1 = .finished ∧ r.2.off = job.filesize ∧
      ∃ n, (visit job ff n).off = job.filesize ∧
        (∀ k < n, (visit job ff k).off < job.filesize) ∧
        Fed job h (seenBytes job ff c n) (seenRows job ff h c n) r.2 := by
  rcases hr with hfinished | ⟨_, hwhole, hnone, _⟩
  · exact hfinished
  · rcases hext with hyes | hsome
    · rw [hwhole] at hyes
      cases hyes
    · exact absurd hnone hsome

end Round

end Duperemove
