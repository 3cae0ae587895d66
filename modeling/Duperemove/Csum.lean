-- SUMMARY: One-shot and running checksums over an abstract streaming hash.
import Mathlib.Logic.Basic

/-!
# Checksums

`csum.c` wraps xxhash. The hash itself is a parameter: a one-shot function and a
streaming interface that agree, which is the only thing the program relies on.
A running checksum is the sequence of buffers that were added to it.
-/

namespace Duperemove

abbrev Byte := UInt8

/-- The xxhash library: `XXH128` on a whole buffer, and the digest of the
    streaming state after a reset and a sequence of updates. Feeding a message
    chunk by chunk gives the digest of the whole message. -/
structure Xxh (Digest : Type) where
  xxh128 : List Byte → Digest
  digest : List (List Byte) → Digest
  digest_eq : ∀ chunks, digest chunks = xxh128 chunks.flatten

/-- The hash that keeps the whole message as its digest, so that it has no
    collision. -/
def Xxh.message : Xxh (List Byte) where
  xxh128 := id
  digest := List.flatten
  digest_eq := fun _ => rfl

/-- `struct running_checksum`: the buffers added since the start. -/
structure RunningChecksum where
  added : List (List Byte)
  deriving DecidableEq, Repr

namespace RunningChecksum

/-- The message a running checksum stands for. -/
def bytes (c : RunningChecksum) : List Byte := c.added.flatten

end RunningChecksum

def checksumBlock {Digest : Type} (h : Xxh Digest) (buf : List Byte) : Digest :=
  h.xxh128 buf

def startRunningChecksum : RunningChecksum := ⟨[]⟩

def addToRunningChecksum (c : RunningChecksum) (buf : List Byte) : RunningChecksum :=
  ⟨c.added ++ [buf]⟩

def finishRunningChecksum {Digest : Type} (h : Xxh Digest) (c : RunningChecksum) : Digest :=
  h.digest c.added

@[simp] theorem startRunningChecksum_bytes : startRunningChecksum.bytes = [] := rfl

@[simp] theorem addToRunningChecksum_bytes (c : RunningChecksum) (buf : List Byte) :
    (addToRunningChecksum c buf).bytes = c.bytes ++ buf := by
  simp [addToRunningChecksum, RunningChecksum.bytes]

/-- A running checksum ends with the digest of its message, however the message
    was cut into buffers. -/
theorem finishRunningChecksum_eq {Digest : Type} (h : Xxh Digest) (c : RunningChecksum) :
    finishRunningChecksum h c = h.xxh128 c.bytes :=
  h.digest_eq c.added

end Duperemove
