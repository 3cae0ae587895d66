-- SUMMARY: A scan that never fast-forwards hashes exactly the file, whatever the read schedule is.
import Mathlib.Data.Nat.ModEq
import Duperemove.FileScan.Run

/-!
# Exactness of a plain scan

When no visit fast-forwards, the bytes fed to the consumers are a prefix of the
file, and the rows are those of the blocks of the file, cut at the multiples of
the block size. `gridRows` states the second part for any origin of the cut,
because after a fast-forward the source cuts the blocks from another origin.
-/

namespace Duperemove

variable {Digest : Type}

-- ---------------------------------------------------------------------------
-- Rows of a grid of blocks
-- ---------------------------------------------------------------------------

/-- The row of the offset `off` when it is a block border of the grid through
    `origin`. -/
def gridRow (job : ScanJob) (h : Xxh Digest) (c : List Byte) (origin off : Nat) :
    Option (BlockCsum Digest) :=
  if off % job.blocksize = origin % job.blocksize then blockRow job h c off else none

/-- The rows of the blocks that start in the `len` bytes from `lo` on, on the
    grid through `origin`. -/
def gridRows (job : ScanJob) (h : Xxh Digest) (c : List Byte) (origin lo len : Nat) :
    List (BlockCsum Digest) :=
  (List.range' lo len).filterMap (gridRow job h c origin)

theorem gridRows_add (job : ScanJob) (h : Xxh Digest) (c : List Byte) (origin lo m n : Nat) :
    gridRows job h c origin lo (m + n) =
      gridRows job h c origin lo m ++ gridRows job h c origin (lo + m) n := by
  unfold gridRows
  rw [← List.range'_append_1, List.filterMap_append]

theorem gridRows_congr {job : ScanJob} (h : Xxh Digest) (c : List Byte) {origin origin' : Nat}
    (heq : origin % job.blocksize = origin' % job.blocksize) (lo len : Nat) :
    gridRows job h c origin lo len = gridRows job h c origin' lo len := by
  unfold gridRows gridRow
  rw [heq]

theorem blockCount_succ (job : ScanJob) (n : Nat) :
    blockCount job (n + 1) =
      if n % job.blocksize = 0 then n / job.blocksize + 1 else blockCount job n := by
  have hpos := job.blocksize_pos
  have hdiv := Nat.div_add_mod n job.blocksize
  rw [Nat.mul_comm] at hdiv
  split
  case isTrue hzero =>
    unfold blockCount
    have hsum : n + 1 + job.blocksize - 1 = n + job.blocksize := by omega
    rw [hsum, Nat.add_div_right _ hpos]
  case isFalse hpart =>
    have htail : n / job.blocksize * job.blocksize < n := by omega
    have hmod := Nat.mod_lt n hpos
    rw [blockCount_of_tail htail, blockCount_eq_succ (Nat.lt_succ_of_lt htail)]
    omega

theorem blockCount_of_dvd {job : ScanJob} {n : Nat} (h : n % job.blocksize = 0) :
    blockCount job n = n / job.blocksize := by
  have hdiv := Nat.div_add_mod n job.blocksize
  have hn : n = n / job.blocksize * job.blocksize := by
    rw [Nat.mul_comm]
    omega
  rw [hn, blockCount_mul, ← hn]

/-- Cutting bytes into blocks from `off` on gives the rows of the grid through
    `off`. -/
theorem blockRows_eq_gridRows (job : ScanJob) (h : Xxh Digest) (c : List Byte) (off bytes : Nat) :
    blockRows job h c off bytes = gridRows job h c off off bytes := by
  induction bytes with
  | zero =>
    have hzero : blockCount job 0 = 0 := by
      have := blockCount_mul job 0
      rwa [Nat.zero_mul] at this
    simp [blockRows, gridRows, hzero]
  | succ n ih =>
    have hdiv := Nat.div_add_mod n job.blocksize
    rw [Nat.mul_comm] at hdiv
    have hgrid : (off + n) % job.blocksize = off % job.blocksize ↔ n % job.blocksize = 0 :=
      Nat.add_modEq_left_iff.trans Nat.dvd_iff_mod_eq_zero
    rw [gridRows_add, ← ih, gridRows, List.range'_one, blockRows, blockCount_succ]
    by_cases hzero : n % job.blocksize = 0
    · -- A block starts at the new byte.
      have hn : n / job.blocksize * job.blocksize = n := by omega
      rw [if_pos hzero, List.range_succ, List.filterMap_append, blockRows,
        blockCount_of_dvd hzero]
      simp only [List.filterMap_cons, List.filterMap_nil, gridRow, hgrid, hzero, if_true, hn]
    · rw [if_neg hzero]
      simp only [List.filterMap_cons, List.filterMap_nil, gridRow, hgrid, hzero, if_false,
        List.append_nil]
      rfl

-- ---------------------------------------------------------------------------
-- A plain run
-- ---------------------------------------------------------------------------

section Plain

variable {job : ScanJob} {h : Xxh Digest} {c : List Byte}

/-- The consumers of a plain run have seen a prefix of the file. -/
theorem seenBytes_plain (job : ScanJob) (c : List Byte) (n : Nat) :
    seenBytes job (fun _ => false) c n = c.take (visit job (fun _ => false) n).off := by
  induction n with
  | zero => rfl
  | succ n ih =>
    rw [seenBytes_succ, ih, visit_succ]
    simp only [Visit.bytes, Visit.next, Bool.false_eq_true, if_false]
    rw [List.take_add]

/-- A plain visit that does not end the file moves on by entire blocks. -/
theorem readBytes_mod {v : Visit} (hblock : job.options.doBlockHash = true)
    (hopen : v.off + v.readBytes job ≠ job.filesize) :
    v.readBytes job % job.blocksize = 0 := by
  unfold Visit.readBytes at hopen ⊢
  by_cases hcut : v.off + v.filled job = job.filesize
  · simp [hcut] at hopen
  · rw [if_pos ⟨hblock, hcut⟩]
    exact Nat.mul_mod_left _ _

/-- The visits of a plain run stand on block borders until the file ends. -/
theorem visit_plain_mod (hblock : job.options.doBlockHash = true) (n : Nat)
    (hbefore : ∀ k ≤ n, (visit job (fun _ => false) k).off < job.filesize) :
    (visit job (fun _ => false) n).off % job.blocksize = 0 := by
  induction n with
  | zero => exact Nat.zero_mod _
  | succ n ih =>
    have hlt := hbefore (n + 1) (Nat.le_refl _)
    rw [visit_succ] at hlt ⊢
    simp only [Visit.next, Bool.false_eq_true, if_false] at hlt ⊢
    have hmod := readBytes_mod hblock (Nat.ne_of_lt hlt)
    rw [Nat.add_mod, hmod, ih fun k hk => hbefore k (by omega)]
    simp

/-- The rows of a plain run are those of the file's own grid of blocks. -/
theorem seenRows_plain (hblock : job.options.doBlockHash = true) (n : Nat)
    (hbefore : ∀ k < n, (visit job (fun _ => false) k).off < job.filesize) :
    seenRows job (fun _ => false) h c n =
      gridRows job h c 0 0 (visit job (fun _ => false) n).off := by
  induction n with
  | zero => rfl
  | succ n ih =>
    rw [seenRows_succ, ih fun k hk => hbefore k (by omega), visit_succ]
    have hmod := visit_plain_mod hblock n fun k hk => hbefore k (by omega)
    simp only [Visit.rows, Visit.next, Bool.false_eq_true, if_false, hblock, if_true]
    rw [gridRows_add, Nat.zero_add, blockRows_eq_gridRows]
    congr 1
    exact gridRows_congr h c (by rw [hmod, Nat.zero_mod]) _ _

/-- A filler that fast-forwards nowhere runs the plain scan: when every byte has
    an extent or extents are not hashed, it hashes the whole file and the blocks
    of the file's grid. -/
theorem scanLoop_plain (h : Xxh Digest) {fill : Filler}
    (hlen : c.length = job.filesize) (hreads : ReadsFile job c)
    (hfill : FillsWith fill job fun _ => false)
    (hext : job.options.onlyWholeFiles = true ∨ job.fiemap.getExtent (job.filesize - 1) ≠ none)
    (buffer : ThreadBuffer) :
    ∃ s, scanLoop fill job h buffer = some (.finished, s) ∧ s.off = job.filesize ∧
      ∃ rows, Fed job h c rows s ∧
        (job.options.doBlockHash = true → rows = gridRows job h c 0 0 job.filesize) ∧
        (job.options.doBlockHash = false → rows = []) := by
  obtain ⟨⟨exit, s⟩, hrun, hpost⟩ := scanLoop_spec (h := h) hlen hreads hfill buffer
  obtain ⟨rfl, hoff, n, hend, hbefore, hfed⟩ := hpost.finished hext
  rw [seenBytes_plain, hend, List.take_of_length_le (by omega)] at hfed
  refine ⟨s, hrun, hoff, _, hfed, fun hblock => ?_, fun hblock => ?_⟩
  · rw [seenRows_plain hblock n hbefore, hend]
  · exact Pieces.upTo_eq_nil (fun k => by simp [Visit.rows, hblock]) n

end Plain

-- ---------------------------------------------------------------------------
-- Maps without ignored extents
-- ---------------------------------------------------------------------------

theorem isAreaIgnoredFrom_noSkip {m : Fiemap} (hskip : ∀ e ∈ m.fmExtents, e.isSkipped = false)
    (stop fuel start : Nat) : isAreaIgnoredFrom m stop fuel start = false := by
  induction fuel generalizing start with
  | zero => rfl
  | succ fuel ih =>
    unfold isAreaIgnoredFrom
    cases he : m.getExtent start with
    | none => simp
    | some e =>
      have hno := hskip e (Fiemap.mem_of_getExtent he)
      simp [hno, ih]

theorem isAreaIgnored_noSkip {m : Fiemap} (hskip : ∀ e ∈ m.fmExtents, e.isSkipped = false)
    (start len : Nat) : isAreaIgnored m start len = false :=
  isAreaIgnoredFrom_noSkip hskip _ _ _

/-- `fill_buffer` only reads when the file is smaller than the buffer or no
    extent is ignored. -/
theorem fillsWith_plain {job : ScanJob}
    (hplain : job.filesize < readBufLen ∨ ∀ e ∈ job.fiemap.fmExtents, e.isSkipped = false) :
    FillsWith fillBuffer job fun _ => false := by
  have hff : (fun off => isFastForwarded job off readBufLen) = fun _ => false := by
    funext off
    rcases hplain with hsmall | hskip
    · have hpast : ¬ off + readBufLen ≤ job.filesize := by omega
      simp [isFastForwarded, hpast]
    · simp [isFastForwarded, isAreaIgnored_noSkip hskip]
  rw [← hff]
  exact fillsWith_fillBuffer job

/-- Without ignored extents every block border of the grid has a row. -/
theorem gridRows_noSkip {job : ScanJob} (h : Xxh Digest) {c : List Byte}
    (hlen : c.length = job.filesize)
    (hskip : ∀ e ∈ job.fiemap.fmExtents, e.isSkipped = false) :
    gridRows job h c 0 0 job.filesize =
      (List.range (blockCount job job.filesize)).map fun i =>
        ⟨i * job.blocksize,
          h.xxh128 (c.extract (i * job.blocksize) (min ((i + 1) * job.blocksize) job.filesize))⟩ := by
  rw [← blockRows_eq_gridRows, blockRows, ← List.filterMap_eq_map]
  apply List.filterMap_congr
  intro i hi
  have hno : isBlockIgnored job (i * job.blocksize) = false := isAreaIgnored_noSkip hskip _ _
  simp only [blockRow, hno, Bool.false_eq_true, and_false, if_false, Nat.zero_add,
    Function.comp_apply, List.extract_eq_take_drop, Option.some.injEq, BlockCsum.mk.injEq, true_and]
  congr 1
  -- A take past the end of the file is cut at its length.
  rw [List.take_eq_take_iff, List.length_drop, Nat.succ_mul]
  omega

/-- A map of one hashed extent. -/
def sampleFiemap : Fiemap where
  fmExtents := [⟨0, 4096, 8192, fiemapExtentLast⟩]
  positive := by decide
  fits := by decide
  sorted := by decide

/-- A file of one block and a partial one, read three bytes at a time. -/
def sampleJob : ScanJob :=
  .ofContent { doBlockHash := true } 4096 sampleFiemap (List.replicate 5000 7) 3
    minBlocksize_le_page page_le_maxBlocksize (by rw [List.length_replicate]; decide)
    (by rw [List.length_replicate]; decide)

theorem sampleJob_filesize : sampleJob.filesize = 5000 := List.length_replicate

end Duperemove
