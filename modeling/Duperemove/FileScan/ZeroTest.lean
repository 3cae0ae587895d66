-- SUMMARY: The zero test reads one word and compares the block with itself one byte on: it finds exactly the blocks of zeros.
import Duperemove.FileScan.Model
import Duperemove.Lib.Memcmp
import Mathlib.Algebra.Ring.Int.Defs
import Mathlib.Algebra.Group.Nat.Defs

/-!
# The zero test

`is_block_zeroed` does not loop over the block. It reads the first word, and leaves the
rest to a `memcmp` of the block with itself one byte on. A buffer is a function from
offsets to bytes here, so that the two ranges overlap as they do in memory. The scan has
its buffers as lists, and the test of a list is the test of its bytes.
-/

namespace Duperemove

open Memcmp (memcmp memcmp_next_eq_zero_iff bytes)

-- ---------------------------------------------------------------------------
-- The test of the source
-- ---------------------------------------------------------------------------

/-- `((int*)buf)[0]`, with the least byte in front. -/
def intAt (buf : Nat → Byte) : Int :=
  let word : Nat := (buf 0).toNat + 2 ^ 8 * (buf 1).toNat + 2 ^ 16 * (buf 2).toNat +
    2 ^ 24 * (buf 3).toNat
  if word < 2 ^ 31 then word else word - 2 ^ 32

/-- `is_block_zeroed`, on the memory behind the pointer; `none` is `NULL`. -/
def isBlockZeroedAt (blocksize : Nat) : Option (Nat → Byte) → Bool
  | none => false
  | some buf => intAt buf == 0 && memcmp buf (fun i => buf (i + 1)) (blocksize - 1) == 0

variable {blocksize : Nat} {buf : Nat → Byte}

/-- The word is zero when its bytes are, in whatever order they make it up. -/
theorem intAt_eq_zero_iff : intAt buf = 0 ↔ ∀ i < 4, buf i = 0 := by
  have hbyte : ∀ i, buf i = 0 ↔ (buf i).toNat = 0 := fun i => UInt8.toNat_inj.symm
  have hlt : ∀ i, (buf i).toNat < 2 ^ 8 := fun i => (buf i).toNat_lt
  have h0 := hlt 0
  have h1 := hlt 1
  have h2 := hlt 2
  have h3 := hlt 3
  have hsum : intAt buf = 0 ↔ (buf 0).toNat = 0 ∧ (buf 1).toNat = 0 ∧ (buf 2).toNat = 0 ∧
      (buf 3).toNat = 0 := by
    rw [intAt]
    split <;> omega
  rw [hsum, ← hbyte, ← hbyte, ← hbyte, ← hbyte]
  constructor
  · rintro ⟨hz0, hz1, hz2, hz3⟩ i hi
    match i, hi with
    | 0, _ => exact hz0
    | 1, _ => exact hz1
    | 2, _ => exact hz2
    | 3, _ => exact hz3
  · intro hall
    exact ⟨hall 0 (by decide), hall 1 (by decide), hall 2 (by decide), hall 3 (by decide)⟩

/-- The word fixes the first byte, and each byte its neighbour. -/
theorem word_and_next_iff (hsize : 4 ≤ blocksize) :
    (intAt buf = 0 ∧ memcmp buf (fun i => buf (i + 1)) (blocksize - 1) = 0) ↔
      ∀ i < blocksize, buf i = 0 := by
  rw [intAt_eq_zero_iff, memcmp_next_eq_zero_iff]
  constructor
  · rintro ⟨hword, hsame⟩ i hi
    rw [hsame i (by omega), hword 0 (by decide)]
  · refine fun hall => ⟨fun i hi => hall i (by omega), fun i hi => ?_⟩
    rw [hall i (by omega), hall 0 (by omega)]

/-- The test is exact. -/
theorem isBlockZeroedAt_iff (hsize : 4 ≤ blocksize) (buf : Nat → Byte) :
    isBlockZeroedAt blocksize (some buf) = true ↔ ∀ i < blocksize, buf i = 0 := by
  rw [isBlockZeroedAt, Bool.and_eq_true, beq_iff_eq, beq_iff_eq]
  exact word_and_next_iff hsize

/-- The zeroed block of the repository's own test. -/
theorem isBlockZeroedAt_iff_hundred : isBlockZeroedAt 100 (some fun _ => 0) = true :=
  (isBlockZeroedAt_iff (by decide) fun _ => 0).2 fun _ _ => rfl

-- ---------------------------------------------------------------------------
-- The test of the scan
-- ---------------------------------------------------------------------------

section Lists

variable {l : List Byte}

/-- The test of the scan is the test of the source on the bytes of the buffer. -/
theorem isBlockZeroed_eq_isBlockZeroedAt (hsize : 4 ≤ blocksize) (hlen : blocksize ≤ l.length) :
    isBlockZeroed blocksize l = isBlockZeroedAt blocksize (some (bytes l)) := by
  rw [Bool.eq_iff_iff, isBlockZeroed, isBlockZeroedAt, Bool.and_eq_true, Bool.and_eq_true,
    List.all_eq_true, beq_iff_eq, beq_iff_eq, beq_iff_eq, intAt_eq_zero_iff,
    ← Memcmp.forall_mem_take_iff (Nat.le_trans hsize hlen),
    Memcmp.take_eq_take_drop_iff (by omega)]
  simp only [beq_iff_eq]

/-- It finds the blocks of zeros, when a whole block is in the buffer. -/
theorem isBlockZeroed_iff (hsize : 4 ≤ blocksize) (hlen : blocksize ≤ l.length) :
    isBlockZeroed blocksize l = true ↔ ∀ b ∈ l.take blocksize, b = 0 := by
  rw [isBlockZeroed_eq_isBlockZeroedAt hsize hlen, isBlockZeroedAt, Bool.and_eq_true, beq_iff_eq,
    beq_iff_eq, word_and_next_iff hsize, Memcmp.forall_mem_take_iff hlen]

end Lists

end Duperemove
