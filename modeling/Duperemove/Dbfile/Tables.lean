-- SUMMARY: The tables of a hashfile, their constraints, and the statements that change them.
import Duperemove.FileScan.Model

/-!
# Tables

The three tables of `create_tables`. The numbers the program binds as 64-bit
integers are only stored, read back and compared for equality, so a column holds
the number that was bound. `dedupe_seq` is the exception: it is bound as a
signed `int` and compared by size. Only `digest` and `flags` are ever NULL.
-/

namespace Duperemove

/-- `DIGEST_LEN` -/
def digestLen : Nat := 16

/-- A digest as it is stored. -/
abbrev DigestBytes := Vector Byte digestLen

-- ---------------------------------------------------------------------------
-- Rows
-- ---------------------------------------------------------------------------

/-- A row of `files`. Until a scan is committed it has no digest and no flags. -/
structure FileRow where
  id : Nat
  filename : String
  ino : Nat
  subvol : Nat
  size : Nat
  mtime : Nat
  dedupeSeq : Int
  digest : Option DigestBytes
  flags : Option Nat
  deriving DecidableEq, Repr

/-- A row of `extents`. -/
structure ExtentRow where
  digest : DigestBytes
  fileid : Nat
  loff : Nat
  poff : Nat
  len : Nat
  deriving DecidableEq, Repr

/-- A row of `blocks`. -/
structure BlockRow where
  digest : DigestBytes
  fileid : Nat
  loff : Nat
  deriving DecidableEq, Repr

-- ---------------------------------------------------------------------------
-- Tables
-- ---------------------------------------------------------------------------

structure Tables where
  files : List FileRow
  extents : List ExtentRow
  blocks : List BlockRow
  deriving DecidableEq, Repr

/-- The primary key, the `UNIQUE` constraints and the foreign keys. -/
structure Tables.Constraints (t : Tables) : Prop where
  id_unique : (t.files.map FileRow.id).Nodup
  ino_unique : (t.files.map fun f => (f.ino, f.subvol)).Nodup
  filename_unique : (t.files.map FileRow.filename).Nodup
  extent_unique : (t.extents.map fun e => (e.fileid, e.loff, e.len)).Nodup
  block_unique : (t.blocks.map fun b => (b.fileid, b.loff)).Nodup
  extent_fileid : ∀ e ∈ t.extents, ∃ f ∈ t.files, f.id = e.fileid
  block_fileid : ∀ b ∈ t.blocks, ∃ f ∈ t.files, f.id = b.fileid

/-- A hashfile: tables that satisfy their constraints. -/
structure Hashfile extends Tables where
  constraints : toTables.Constraints

end Duperemove
