-- SUMMARY: The hash tree: blocks by digest and by file, with insertion, removal and the loop that frees it.
import Duperemove.Dbfile.Tables
import Duperemove.Lib.Loop
import Duperemove.Lib.SafeList
import Duperemove.Lib.SearchTree
import Mathlib.Logic.Function.Basic

/-!
# The hash tree

The block-wise search keeps the hashed blocks by digest and by file. A list for each
digest holds its blocks, and a tree of heads with the blocks of each file again. The block
tree of a file holds the blocks of the file in the order of their offsets.

The nodes of a tree hold their data, and a write to a node leaves it in its place. So a
list is allocated as long as it is in the tree, and it is known by its address. A block is
known by its fields, since no two blocks have the same file and the same offset.
-/

namespace Duperemove

open SearchTree (KeyTree Balance)

namespace HashTree

-- ---------------------------------------------------------------------------
-- The structures
-- ---------------------------------------------------------------------------

/-- `struct file_block`. The list and the file are addresses. -/
structure FileBlock where
  bParent : Nat
  bFile : Nat
  bLoff : Nat
  deriving DecidableEq, Repr

/-- `struct file_hash_head` -/
structure FileHashHead where
  hFile : Nat
  hBlocks : List FileBlock
  deriving DecidableEq, Repr

/-- `struct dupe_blocks_list`, at its address. -/
structure DupeBlocksList where
  addr : Nat
  dlHash : DigestBytes
  dlNumElem : Nat
  dlList : List FileBlock
  dlNumFiles : Nat
  dlFilesRoot : KeyTree FileHashHead
  deriving DecidableEq, Repr

end HashTree

/-- `struct hash_tree`, the `block_tree` of each file, and an address that was not used
    yet. The lists in `size_list` are known by their addresses. -/
structure HashTree where
  root : KeyTree HashTree.DupeBlocksList
  sizeList : List Nat
  numBlocks : Nat
  numHashes : Nat
  blockTree : Nat → KeyTree HashTree.FileBlock
  nextAddr : Nat

namespace HashTree

/-- The order of the heads: a head at a smaller address sends the descent to its left. -/
def cmpHeads (file hFile : Nat) : Ordering := compare hFile file

instance : Std.TransCmp cmpHeads := inferInstanceAs (Std.TransCmp fun a b : Nat => compare b a)

instance : Std.LawfulEqCmp cmpHeads :=
  inferInstanceAs (Std.LawfulEqCmp fun a b : Nat => compare b a)

/-- `init_hash_tree`, with files that have no blocks. -/
def initHashTree : HashTree := ⟨.nil, [], 0, 0, fun _ => .nil, 0⟩

variable (rb : (α : Type) → [DecidableEq α] → Balance α)

-- ---------------------------------------------------------------------------
-- Block trees
-- ---------------------------------------------------------------------------

/-- `insert_block_into_filerec`; `none` is its abort. -/
def insertBlockIntoFilerec (blockTree : KeyTree FileBlock) (block : FileBlock) :
    Option (KeyTree FileBlock) :=
  (blockTree.link (KeyTree.side compare FileBlock.bLoff block.bLoff) block).map
    (rb FileBlock).insertColor

def findFilerecBlock (s : HashTree) (file loff : Nat) : Option FileBlock :=
  (s.blockTree file).find (KeyTree.side compare FileBlock.bLoff loff)

-- ---------------------------------------------------------------------------
-- Heads
-- ---------------------------------------------------------------------------

namespace DupeBlocksList

variable (dups : DupeBlocksList)

def findFileHashHead (file : Nat) : Option FileHashHead :=
  dups.dlFilesRoot.find (KeyTree.side cmpHeads FileHashHead.hFile file)

/-- `insert_file_hash_head`; `none` is its abort. -/
def insertFileHashHead (head : FileHashHead) : Option DupeBlocksList :=
  (dups.dlFilesRoot.link (KeyTree.side cmpHeads FileHashHead.hFile head.hFile) head).map fun t =>
    { dups with dlFilesRoot := (rb FileHashHead).insertColor t }

/-- `list_add_tail` of a block to the blocks of a head. -/
def listAddTail (head : FileHashHead) (block : FileBlock) : DupeBlocksList :=
  { dups with
    dlFilesRoot := dups.dlFilesRoot.map fun h =>
      if h = head then { h with hBlocks := h.hBlocks ++ [block] } else h }

def addFileHashHead (block : FileBlock) : Option DupeBlocksList :=
  match dups.findFileHashHead block.bFile with
  | some head => some (dups.listAddTail head block)
  | none =>
    let head : FileHashHead := ⟨block.bFile, []⟩
    (dups.insertFileHashHead rb head).map fun dups =>
      { dups with dlNumFiles := dups.dlNumFiles + 1 }.listAddTail head block

/-- `free_one_hash_head` -/
def freeOneHashHead (head : FileHashHead) : DupeBlocksList :=
  { dups with dlFilesRoot := (rb FileHashHead).erase dups.dlFilesRoot head }

/-- `list_del` of `b_list` and of `b_head_list`, as far as the block is in this list. -/
def listDel (block : FileBlock) : DupeBlocksList :=
  { dups with
    dlList := dups.dlList.erase block
    dlFilesRoot := dups.dlFilesRoot.map fun h => { h with hBlocks := h.hBlocks.erase block } }

/-- The head of a file is freed when it ran empty. -/
def freeEmptyHead (file : Nat) : DupeBlocksList :=
  match dups.findFileHashHead file with
  | some head => if head.hBlocks = [] then dups.freeOneHashHead rb head else dups
  | none => dups

end DupeBlocksList

-- ---------------------------------------------------------------------------
-- Lists
-- ---------------------------------------------------------------------------

variable (s : HashTree)

/-- The list at an address; `none` when it was freed. -/
def listAt (addr : Nat) : Option DupeBlocksList := s.root.inorder.find? fun dups => dups.addr = addr

/-- A list is written where it is. -/
def write (root : KeyTree DupeBlocksList) (dups : DupeBlocksList) : KeyTree DupeBlocksList :=
  root.map fun x => if x.addr = dups.addr then dups else x

/-- `insert_block_list`; `none` is its abort. -/
def insertBlockList (list : DupeBlocksList) : Option HashTree :=
  (s.root.link (KeyTree.side compare DupeBlocksList.dlHash list.dlHash) list).map fun t =>
    { s with root := (rb DupeBlocksList).insertColor t, numHashes := s.numHashes + 1 }

def findBlockList (digest : DigestBytes) : Option DupeBlocksList :=
  s.root.find (KeyTree.side compare DupeBlocksList.dlHash digest)

-- ---------------------------------------------------------------------------
-- Insertion
-- ---------------------------------------------------------------------------

/-- The first part of `insert_hashed_block`: the list of the digest, which is created when
    it is not there. -/
def blockList (digest : DigestBytes) : Option (DupeBlocksList × HashTree) :=
  match s.findBlockList digest with
  | some d => some (d, s)
  | none =>
    let d : DupeBlocksList := ⟨s.nextAddr, digest, 0, [], 0, .nil⟩
    (s.insertBlockList rb d).map fun s => (d, { s with nextAddr := s.nextAddr + 1 })

/-- The second part of `insert_hashed_block`: the block is linked into the list, the head
    of its file and the block tree. -/
def linkBlock (d : DupeBlocksList) (e : FileBlock) : Option HashTree := do
  let d ← d.addFileHashHead rb e
  let t ← insertBlockIntoFilerec rb (s.blockTree e.bFile) e
  let numElem := d.dlNumElem + 1
  some { s with
    root := write s.root { d with dlNumElem := numElem, dlList := d.dlList ++ [e] }
    sizeList := if 1 < numElem ∧ d.addr ∉ s.sizeList then d.addr :: s.sizeList else s.sizeList
    blockTree := Function.update s.blockTree e.bFile t
    numBlocks := s.numBlocks + 1 }

/-- `insert_hashed_block`, with the new block. -/
def insertHashedBlock (digest : DigestBytes) (file loff : Nat) : Option (FileBlock × HashTree) := do
  let (d, s) ← s.blockList rb digest
  let e : FileBlock := ⟨d.addr, file, loff⟩
  let s ← s.linkBlock rb d e
  some (e, s)

-- ---------------------------------------------------------------------------
-- Removal
-- ---------------------------------------------------------------------------

/-- `remove_hashed_block`. It returns 1 when the list of the block was freed with it. -/
def removeHashedBlock (block : FileBlock) : Option (Nat × HashTree) :=
  match s.listAt block.bParent with
  | none => none
  | some blocklist =>
    if blocklist.dlNumElem = 0 then none
    else
      let file := block.bFile
      let blockTree := Function.update s.blockTree file
        ((rb FileBlock).erase (s.blockTree file) block)
      -- The block is unlinked from whatever lists it is in.
      let root := s.root.map fun dups => dups.listDel block
      let blocklist := (blocklist.listDel block).freeEmptyHead rb file
      let blocklist := { blocklist with dlNumElem := blocklist.dlNumElem - 1 }
      let root := write root blocklist
      let s := { s with root, blockTree, numBlocks := s.numBlocks - 1 }
      if blocklist.dlNumElem = 0 then
        some (1,
          { s with
            root := (rb DupeBlocksList).erase root blocklist
            sizeList := s.sizeList.erase blocklist.addr
            numHashes := s.numHashes - 1 })
      else some (0, s)

-- ---------------------------------------------------------------------------
-- Freeing the tree
-- ---------------------------------------------------------------------------

/-- The loops of `free_hash_tree`: the inner one has the address of its list and a cursor. -/
structure FreeWalk where
  sys : HashTree
  inner : Option (Nat × SafeList.Cursor FileBlock)

/-- One round of the two loops. Access to what was freed leaves with `none`. -/
def freeRound (w : FreeWalk) : Loop.Next FreeWalk (Option HashTree) :=
  match w.inner with
  | none =>
    match w.sys.root.inorder.head? with
    | none => .leave (some w.sys)
    | some dups => .again ⟨w.sys, some (dups.addr, .first id dups.dlList)⟩
  | some (addr, c) =>
    match c.cur with
    | none => .again ⟨w.sys, none⟩
    | some k =>
      match (w.sys.listAt addr).bind fun dups => SafeList.at? id dups.dlList k with
      | none => .leave none
      | some block =>
        match w.sys.removeHashedBlock rb block with
        | none => .leave none
        | some (0, s) =>
          match s.listAt addr with
          | none => .leave none
          | some dups => .again ⟨s, some (addr, c.advance id dups.dlList)⟩
        | some (_, s) => .again ⟨s, none⟩

/-- `free_hash_tree`. No more than two rounds for each block are needed. -/
def freeHashTree : Option HashTree :=
  (Loop.run (freeRound rb) (2 * s.numBlocks + 2) ⟨s, none⟩).join

end HashTree

end Duperemove
