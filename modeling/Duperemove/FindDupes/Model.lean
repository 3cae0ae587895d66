-- SUMMARY: The block-wise search for duplicate extents: `compare_extents` over the block trees of two files.
import Duperemove.Csum
import Duperemove.Dedupe.Context
import Duperemove.Lib.Loop
import Duperemove.Lib.Word

/-!
# Comparing extents block by block

`compare_extents` walks over the blocks of two files in lock-step, from a pair of
blocks with the same digest on, and records the stretches where the digests
agree. The two cursors always move together, so the state is the list of the
pairs that lie ahead, and its head is the pair `(orig, block)`.
-/

namespace Duperemove

-- ---------------------------------------------------------------------------
-- Block trees
-- ---------------------------------------------------------------------------

/-- `struct file_block`. There is one `dupe_blocks_list` for each digest, so
    `b_parent` is the digest. -/
structure FileBlock where
  bLoff : Nat
  digest : List Byte
  deriving DecidableEq, Repr

/-- A file record with its block tree, in the order of `rb_next`. File sizes and
    offsets are signed in the kernel. -/
structure BlockFile where
  file : FileId
  size : Nat
  blocks : List FileBlock
  sorted : blocks.Pairwise fun a b => a.bLoff < b.bLoff
  size_lt : size < 2 ^ 63
  bLoff_lt : ∀ b ∈ blocks, b.bLoff < 2 ^ 63

/-- `block_len` of a block in a file of the given size. -/
def blockLen (blocksize size : Nat) (b : FileBlock) : Nat :=
  if b.bLoff + blocksize ≤ size then blocksize
  else if b.bLoff ≥ size then 0
  else (size - b.bLoff) % blocksize

/-- The offset of the last byte of a block. -/
def blockEnd (blocksize size : Nat) (b : FileBlock) : Nat :=
  Word.sub 64 (blockLen blocksize size b + b.bLoff) 1

-- ---------------------------------------------------------------------------
-- Recorded matches
-- ---------------------------------------------------------------------------

/-- The arguments of `insert_result`: the match id, and the first and last offset
    of the range in each of the two files. -/
structure BlockMatch where
  digest : List Byte
  soff : Nat × Nat
  eoff : Nat × Nat
  deriving DecidableEq, Repr

/-- A pair of blocks that the walk compares: one of the original file and one of
    the walked file. -/
abbrev BlockPair := FileBlock × FileBlock

/-- The fixed parameters of one call. -/
structure CompareJob where
  blocksize : Nat
  orig : BlockFile
  walk : BlockFile
  extentEnd : Nat

def recordMatch (job : CompareJob) (digest : List Byte) (start stop : BlockPair) : BlockMatch where
  digest := digest
  soff := (start.1.bLoff, start.2.bLoff)
  eoff := (blockEnd job.blocksize job.orig.size stop.1, blockEnd job.blocksize job.walk.size stop.2)

-- ---------------------------------------------------------------------------
-- The two loops
-- ---------------------------------------------------------------------------

/-- `block->b_parent != orig->b_parent && block->b_loff < extent_end` -/
def isMismatch (job : CompareJob) (p : BlockPair) : Bool :=
  decide (p.2.digest ≠ p.1.digest) && decide (p.2.bLoff < job.extentEnd)

/-- `block->b_parent == orig->b_parent && block->b_loff < extent_end` -/
def isMatch (job : CompareJob) (p : BlockPair) : Bool :=
  decide (p.2.digest = p.1.digest) && decide (p.2.bLoff < job.extentEnd)

/-- Whether a pair directly follows another one in both files. -/
def isContiguous (job : CompareJob) (p q : BlockPair) : Bool :=
  decide (q.1.bLoff = p.1.bLoff + job.blocksize) && decide (q.2.bLoff = p.2.bLoff + job.blocksize)

/-- The first loop: fast-forward to a match. `none` is the return at the end of a
    tree. -/
def skipMismatches (job : CompareJob) : List BlockPair → Option (List BlockPair)
  | [] => none
  | [p] => if isMismatch job p then none else some [p]
  | p :: q :: ps =>
    if isMismatch job p then skipMismatches job (q :: ps) else some (p :: q :: ps)

/-- The variables of the second loop: the running checksum, the list from the
    last matching pair on, and the list from the current pair on. -/
structure MatchLoop where
  csum : RunningChecksum
  stop : List BlockPair
  pairs : List BlockPair
  matchmore : Bool
  deriving DecidableEq, Repr

/-- The second loop: extend the match. `stop` is empty as long as no pair
    matched. -/
def extendMatch (job : CompareJob) (csum : RunningChecksum) (stop : List BlockPair) :
    List BlockPair → MatchLoop
  | [] => ⟨csum, stop, [], true⟩
  | [p] =>
    if isMatch job p then ⟨addToRunningChecksum csum p.2.digest, [p], [p], false⟩
    else ⟨csum, stop, [p], true⟩
  | p :: q :: ps =>
    if isMatch job p then
      let csum := addToRunningChecksum csum p.2.digest
      if isContiguous job p q then extendMatch job csum (p :: q :: ps) (q :: ps)
      else ⟨csum, p :: q :: ps, q :: ps, false⟩
    else ⟨csum, stop, p :: q :: ps, true⟩

-- ---------------------------------------------------------------------------
-- `compare_extents`
-- ---------------------------------------------------------------------------

structure CompareState where
  pairs : List BlockPair
  recorded : List BlockMatch
  deriving DecidableEq, Repr

/-- From the label `next_match` to the next one or to the return. -/
def compareRound (h : Xxh (List Byte)) (job : CompareJob) (s : CompareState) :
    Loop.Next CompareState (List BlockMatch) :=
  match s.pairs with
  | [] => .leave s.recorded
  | start :: _ =>
    match skipMismatches job s.pairs with
    | none => .leave s.recorded
    | some pairs =>
      let m := extendMatch job startRunningChecksum [] pairs
      match m.stop with
      | [] => .leave s.recorded
      | stop :: rest =>
        if blockEnd job.blocksize job.walk.size stop.2 ≤ job.extentEnd then
          let recorded :=
            s.recorded ++ [recordMatch job (finishRunningChecksum h m.csum) start stop]
          if m.matchmore then
            match rest, m.pairs with
            | [], _ => .leave recorded
            | _ :: _, [] => .leave recorded
            | _ :: _, cur :: _ =>
              if cur.2.bLoff > job.extentEnd then .leave recorded else .again ⟨rest, recorded⟩
          else .leave recorded
        else .leave s.recorded

/-- The pairs of a call that starts at the `i`-th and the `j`-th block. -/
def lockstep (orig walk : BlockFile) (i j : Nat) : List BlockPair :=
  (orig.blocks.drop i).zip (walk.blocks.drop j)

/-- The end of the searched area: `block->b_loff + search_len - 1` in 64 bits. -/
def extentEndOf (bLoff searchLen : Nat) : Nat := Word.sub 64 (Word.wrap 64 (bLoff + searchLen)) 1

/-- The matches that `compare_extents` records, in order. Every round starts
    behind the match of the one before, so the bound is never met. -/
def compareExtents (h : Xxh (List Byte)) (blocksize : Nat) (orig walk : BlockFile)
    (i j searchLen : Nat) : Option (List BlockMatch) :=
  match lockstep orig walk i j with
  | [] => some []
  | start :: pairs =>
    Loop.run
      (compareRound h ⟨blocksize, orig, walk, extentEndOf start.2.bLoff searchLen⟩)
      (pairs.length + 2) ⟨start :: pairs, []⟩

end Duperemove
