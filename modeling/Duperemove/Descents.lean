-- SUMMARY: The hand-written descents of all search trees: insertions and lookups go the same way, so no key is lost or stored twice.
import Duperemove.Filerec
import Duperemove.HashTree
import Duperemove.ResultsTree.Removal
import Duperemove.Lib.Memcmp
import Duperemove.Lib.TreeRuns
import Mathlib.Order.Defs.LinearOrder

/-!
# The descents of the search trees

`rbtree.c` only rebalances. Every tree of the program has its own loop that goes down to
the place of a node, and a second loop in its lookup, and each pair must branch alike. Some
trees are reversed: a smaller key of a node sends the descent to its left.

A descent is the function that tells at a node where to go, `lt` for the left and `gt` for
the right, and `eq` where it stops. The branches are those of the source, in its order. In
an insertion, `none` is the branch that finds the key: the return value 1 of
`insert_extent_rb`, and an abort in all others. Pointers are compared as addresses.
-/

namespace Duperemove

open SearchTree (KeyTree Balance InsertsInOrder FindsLive Insertion)
open Memcmp (memcmp bytes)

/-- `struct dupe_extents`, as the tree of groups compares it. -/
structure DupeExtentsNode where
  addr : Nat
  deLen : Nat
  deHash : DigestBytes
  deriving DecidableEq, Repr

def DupeExtentsNode.key (dext : DupeExtentsNode) : Nat × DigestBytes := (dext.deLen, dext.deHash)

/-- `struct filerec_token`. The file is the address of its record. -/
structure FilerecToken where
  addr : Nat
  tFile : Nat
  deriving DecidableEq, Repr

namespace Descents

open HashTree (FileHashHead DupeBlocksList)

-- ---------------------------------------------------------------------------
-- results-tree.c
-- ---------------------------------------------------------------------------

def extentsRbCmp (e1 e2 : ResultExtent) : Int :=
  if e1.eFile.addr > e2.eFile.addr then -1
  else if e1.eFile.addr < e2.eFile.addr then 1
  else if e1.eLoff > e2.eLoff then -1
  else if e1.eLoff < e2.eLoff then 1
  else 0

def insertExtentRb (b : Balance ResultExtent) (root : KeyTree ResultExtent) (e : ResultExtent) :
    Option (KeyTree ResultExtent) :=
  (root.link (fun tmp =>
    let res := extentsRbCmp tmp e
    if res < 0 then .lt
    else if res > 0 then .gt
    else .eq) e).map b.insertColor

def insertDupeExtents (b : Balance DupeExtentsNode) (root : KeyTree DupeExtentsNode)
    (dext : DupeExtentsNode) : Option (KeyTree DupeExtentsNode) :=
  (root.link (fun tmp =>
    if dext.deLen < tmp.deLen then .lt
    else if dext.deLen > tmp.deLen then .gt
    else
      let cmp := memcmp (bytes dext.deHash.toList) (bytes tmp.deHash.toList) digestLen
      if cmp < 0 then .lt
      else if cmp > 0 then .gt
      else .eq) dext).map b.insertColor

def findDupeExtents (root : KeyTree DupeExtentsNode) (digest : DigestBytes) (len : Nat) :
    Option DupeExtentsNode :=
  root.find fun dext =>
    if len < dext.deLen then .lt
    else if len > dext.deLen then .gt
    else
      let cmp := memcmp (bytes digest.toList) (bytes dext.deHash.toList) digestLen
      if cmp < 0 then .lt
      else if cmp > 0 then .gt
      else .eq

-- ---------------------------------------------------------------------------
-- hash-tree.c
-- ---------------------------------------------------------------------------

def insertBlockIntoFilerec (b : Balance HashTree.FileBlock) (blockTree : KeyTree HashTree.FileBlock)
    (block : HashTree.FileBlock) : Option (KeyTree HashTree.FileBlock) :=
  (blockTree.link (fun tmp =>
    if tmp.bLoff > block.bLoff then .lt
    else if tmp.bLoff < block.bLoff then .gt
    else .eq) block).map b.insertColor

def findFilerecBlock (blockTree : KeyTree HashTree.FileBlock) (loff : Nat) :
    Option HashTree.FileBlock :=
  blockTree.find fun block =>
    if block.bLoff > loff then .lt
    else if block.bLoff < loff then .gt
    else .eq

def findFileHashHead (dlFilesRoot : KeyTree FileHashHead) (file : Nat) : Option FileHashHead :=
  dlFilesRoot.find fun head =>
    if head.hFile < file then .lt
    else if head.hFile > file then .gt
    else .eq

def insertFileHashHead (b : Balance FileHashHead) (dlFilesRoot : KeyTree FileHashHead)
    (head : FileHashHead) : Option (KeyTree FileHashHead) :=
  (dlFilesRoot.link (fun tmp =>
    if tmp.hFile < head.hFile then .lt
    else if tmp.hFile > head.hFile then .gt
    else .eq) head).map b.insertColor

def insertBlockList (b : Balance DupeBlocksList) (root : KeyTree DupeBlocksList)
    (list : DupeBlocksList) : Option (KeyTree DupeBlocksList) :=
  (root.link (fun tmp =>
    let cmp := memcmp (bytes list.dlHash.toList) (bytes tmp.dlHash.toList) digestLen
    if cmp < 0 then .lt
    else if cmp > 0 then .gt
    else .eq) list).map b.insertColor

def findBlockList (root : KeyTree DupeBlocksList) (digest : DigestBytes) : Option DupeBlocksList :=
  root.find fun list =>
    let cmp := memcmp (bytes digest.toList) (bytes list.dlHash.toList) digestLen
    if cmp < 0 then .lt
    else if cmp > 0 then .gt
    else .eq

-- ---------------------------------------------------------------------------
-- filerec.c
-- ---------------------------------------------------------------------------

def findFilerecTokenRb (root : KeyTree FilerecToken) (val : Nat) : Option FilerecToken :=
  root.find fun t =>
    if t.tFile > val then .lt
    else if t.tFile < val then .gt
    else .eq

def insertFilerecTokenRb (b : Balance FilerecToken) (root : KeyTree FilerecToken)
    (token : FilerecToken) : Option (KeyTree FilerecToken) :=
  (root.link (fun tmp =>
    if tmp.tFile > token.tFile then .lt
    else if tmp.tFile < token.tFile then .gt
    else .eq) token).map b.insertColor

def cmpFilerecs (file1 : FilerecNode) (file2Fileid : Int) : Int :=
  if file1.fileid < file2Fileid then -1
  else if file1.fileid > file2Fileid then 1
  else 0

def insertFilerec (b : Balance FilerecNode) (filerecByFileid : KeyTree FilerecNode)
    (file : FilerecNode) : Option (KeyTree FilerecNode) :=
  (filerecByFileid.link (fun tmp =>
    let c := cmpFilerecs tmp file.fileid
    if c < 0 then .lt
    else if c > 0 then .gt
    else .eq) file).map b.insertColor

def filerecFind (filerecByFileid : KeyTree FilerecNode) (fileid : Int) : Option FilerecNode :=
  filerecByFileid.find fun file =>
    let c := cmpFilerecs file fileid
    if c < 0 then .lt
    else if c > 0 then .gt
    else .eq

-- ---------------------------------------------------------------------------
-- The side of a key
-- ---------------------------------------------------------------------------

section Sides

variable {α : Type} [LinearOrder α]

/-- A test and its converse, and what decides when both fail. -/
theorem tests_eq_then (x y : α) (rest : Ordering) :
    (if x < y then .lt else if y < x then .gt else rest) = (compare x y).then rest := by
  rcases lt_trichotomy x y with hlt | rfl | hgt
  · rw [if_pos hlt, compare_lt_iff_lt.2 hlt]
    rfl
  · rw [if_neg (lt_irrefl x), if_neg (lt_irrefl x), compare_eq_iff_eq.2 rfl]
    rfl
  · rw [if_neg hgt.asymm, if_pos hgt, compare_gt_iff_gt.2 hgt]
    rfl

theorem tests_eq_compare (x y : α) :
    (if x < y then .lt else if y < x then .gt else .eq) = compare x y := by
  rw [tests_eq_then, Ordering.then_eq]

/-- The same for a function that returns -1, 1, or what decides then. -/
theorem branch_tests (x y : α) (rest : Int) :
    Memcmp.branch (if x < y then -1 else if y < x then 1 else rest) =
      (compare x y).then (Memcmp.branch rest) := by
  rw [← tests_eq_then, apply_ite Memcmp.branch, apply_ite Memcmp.branch]
  rfl

end Sides

/-- The groups: the lengths decide, and the digests where the lengths are equal. -/
theorem groups_eq_pairCmp (len len' : Nat) (digest digest' : DigestBytes) :
    (if len < len' then .lt
      else if len' < len then .gt
      else Memcmp.branch (memcmp (bytes digest.toList) (bytes digest'.toList) digestLen)) =
      pairCmp (len, digest) (len', digest') := by
  rw [tests_eq_then, Memcmp.branch_memcmp_vector]
  rfl

/-- The extents: the records decide, and the offsets within one record. -/
theorem branch_extentsRbCmp (tmp e : ResultExtent) :
    Memcmp.branch (extentsRbCmp tmp e) = pairCmp e.key tmp.key := by
  refine (branch_tests e.eFile.addr tmp.eFile.addr _).trans ?_
  rw [branch_tests e.eLoff tmp.eLoff 0]
  exact congrArg _ Ordering.then_eq

/-- The records: the descent goes to the left from a smaller id. -/
theorem branch_cmpFilerecs (file : FilerecNode) (fileid : Int) :
    Memcmp.branch (cmpFilerecs file fileid) = Duperemove.cmpFilerecs fileid file.fileid :=
  (branch_tests file.fileid fileid 0).trans Ordering.then_eq

-- ---------------------------------------------------------------------------
-- Each descent
-- ---------------------------------------------------------------------------

theorem insertDupeExtents_descends :
    Insertion.Descends pairCmp DupeExtentsNode.key insertDupeExtents :=
  Insertion.descends_of_tests fun dext tmp =>
    groups_eq_pairCmp dext.deLen tmp.deLen dext.deHash tmp.deHash

theorem findDupeExtents_eq (root : KeyTree DupeExtentsNode) (k : Nat × DigestBytes) :
    findDupeExtents root k.2 k.1 = root.find (KeyTree.side pairCmp DupeExtentsNode.key k) :=
  congrArg root.find (funext fun dext => groups_eq_pairCmp k.1 dext.deLen k.2 dext.deHash)

theorem insertExtentRb_descends : Insertion.Descends pairCmp ResultExtent.key insertExtentRb :=
  Insertion.descends_of_tests fun e tmp => branch_extentsRbCmp tmp e

theorem insertBlockList_descends :
    Insertion.Descends compare DupeBlocksList.dlHash insertBlockList :=
  Insertion.descends_of_tests fun list tmp => Memcmp.branch_memcmp_vector list.dlHash tmp.dlHash

theorem findBlockList_eq (root : KeyTree DupeBlocksList) (digest : DigestBytes) :
    findBlockList root digest = root.find (KeyTree.side compare DupeBlocksList.dlHash digest) :=
  congrArg root.find (funext fun list => Memcmp.branch_memcmp_vector digest list.dlHash)

theorem insertFileHashHead_descends :
    Insertion.Descends HashTree.cmpHeads FileHashHead.hFile insertFileHashHead :=
  Insertion.descends_of_tests fun head tmp => tests_eq_compare tmp.hFile head.hFile

theorem findFileHashHead_eq (root : KeyTree FileHashHead) (file : Nat) :
    findFileHashHead root file =
      root.find (KeyTree.side HashTree.cmpHeads FileHashHead.hFile file) :=
  congrArg root.find (funext fun head => tests_eq_compare head.hFile file)

theorem insertBlockIntoFilerec_descends :
    Insertion.Descends compare HashTree.FileBlock.bLoff insertBlockIntoFilerec :=
  Insertion.descends_of_tests fun block tmp => tests_eq_compare block.bLoff tmp.bLoff

theorem findFilerecBlock_eq (blockTree : KeyTree HashTree.FileBlock) (loff : Nat) :
    findFilerecBlock blockTree loff =
      blockTree.find (KeyTree.side compare HashTree.FileBlock.bLoff loff) :=
  congrArg blockTree.find (funext fun block => tests_eq_compare loff block.bLoff)

theorem insertFilerec_descends :
    Insertion.Descends Duperemove.cmpFilerecs FilerecNode.fileid insertFilerec :=
  Insertion.descends_of_tests fun file tmp => branch_cmpFilerecs tmp file.fileid

theorem filerecFind_eq (root : KeyTree FilerecNode) (fileid : Int) :
    filerecFind root fileid =
      root.find (KeyTree.side Duperemove.cmpFilerecs FilerecNode.fileid fileid) :=
  congrArg root.find (funext fun file => branch_cmpFilerecs file fileid)

theorem insertFilerecTokenRb_descends :
    Insertion.Descends compare FilerecToken.tFile insertFilerecTokenRb :=
  Insertion.descends_of_tests fun token tmp => tests_eq_compare token.tFile tmp.tFile

theorem findFilerecTokenRb_eq (root : KeyTree FilerecToken) (val : Nat) :
    findFilerecTokenRb root val = root.find (KeyTree.side compare FilerecToken.tFile val) :=
  congrArg root.find (funext fun t => tests_eq_compare val t.tFile)

-- ---------------------------------------------------------------------------
-- All trees
-- ---------------------------------------------------------------------------

/-- What each tree should do in every run, under the comparison that its insertion uses. -/
structure DescendAlike : Prop where
  groups : InsertsInOrder pairCmp DupeExtentsNode.key insertDupeExtents ∧
    FindsLive DupeExtentsNode.key insertDupeExtents fun root k => findDupeExtents root k.2 k.1
  extents : InsertsInOrder pairCmp ResultExtent.key insertExtentRb
  blockLists : InsertsInOrder compare DupeBlocksList.dlHash insertBlockList ∧
    FindsLive DupeBlocksList.dlHash insertBlockList findBlockList
  heads : InsertsInOrder HashTree.cmpHeads FileHashHead.hFile insertFileHashHead ∧
    FindsLive FileHashHead.hFile insertFileHashHead findFileHashHead
  blocks : InsertsInOrder compare HashTree.FileBlock.bLoff insertBlockIntoFilerec ∧
    FindsLive HashTree.FileBlock.bLoff insertBlockIntoFilerec findFilerecBlock
  records : InsertsInOrder Duperemove.cmpFilerecs FilerecNode.fileid insertFilerec ∧
    FindsLive FilerecNode.fileid insertFilerec filerecFind
  tokens : InsertsInOrder compare FilerecToken.tFile insertFilerecTokenRb ∧
    FindsLive FilerecToken.tFile insertFilerecTokenRb findFilerecTokenRb

theorem descendAlike : DescendAlike where
  groups := ⟨insertDupeExtents_descends.insertsInOrder,
    insertDupeExtents_descends.findsLive findDupeExtents_eq⟩
  extents := insertExtentRb_descends.insertsInOrder
  blockLists := ⟨insertBlockList_descends.insertsInOrder,
    insertBlockList_descends.findsLive findBlockList_eq⟩
  heads := ⟨insertFileHashHead_descends.insertsInOrder,
    insertFileHashHead_descends.findsLive findFileHashHead_eq⟩
  blocks := ⟨insertBlockIntoFilerec_descends.insertsInOrder,
    insertBlockIntoFilerec_descends.findsLive findFilerecBlock_eq⟩
  records := ⟨insertFilerec_descends.insertsInOrder,
    insertFilerec_descends.findsLive filerecFind_eq⟩
  tokens := ⟨insertFilerecTokenRb_descends.insertsInOrder,
    insertFilerecTokenRb_descends.findsLive findFilerecTokenRb_eq⟩

/-- The heads are reversed: the one of the file at the larger address comes first. -/
example : (SearchTree.run insertFileHashHead (.none FileHashHead)
    ([.insert ⟨1, []⟩, .insert ⟨3, []⟩, .insert ⟨2, []⟩, .insert ⟨3, []⟩, .erase ⟨1, []⟩] :
      List (SearchTree.Op FileHashHead.hFile))).inorder = [⟨3, []⟩, ⟨2, []⟩] := by
  decide

-- ---------------------------------------------------------------------------
-- The trees of the hash tree and of the registry
-- ---------------------------------------------------------------------------

section Models

variable (rb : (α : Type) → [DecidableEq α] → Balance α) (b : Balance FilerecNode)

theorem hashTree_insertBlockIntoFilerec (blockTree : KeyTree HashTree.FileBlock)
    (block : HashTree.FileBlock) :
    HashTree.insertBlockIntoFilerec rb blockTree block =
      insertBlockIntoFilerec (rb HashTree.FileBlock) blockTree block :=
  (insertBlockIntoFilerec_descends _ _ _).symm

theorem hashTree_findFilerecBlock (s : HashTree) (file loff : Nat) :
    s.findFilerecBlock file loff = findFilerecBlock (s.blockTree file) loff :=
  (findFilerecBlock_eq _ _).symm

theorem hashTree_insertFileHashHead (dups : DupeBlocksList) (head : FileHashHead) :
    dups.insertFileHashHead rb head =
      (insertFileHashHead (rb FileHashHead) dups.dlFilesRoot head).map fun t =>
        { dups with dlFilesRoot := t } := by
  rw [insertFileHashHead_descends, Option.map_map]
  rfl

theorem hashTree_findFileHashHead (dups : DupeBlocksList) (file : Nat) :
    dups.findFileHashHead file = findFileHashHead dups.dlFilesRoot file :=
  (findFileHashHead_eq _ _).symm

theorem hashTree_insertBlockList (s : HashTree) (list : DupeBlocksList) :
    s.insertBlockList rb list =
      (insertBlockList (rb DupeBlocksList) s.root list).map fun t =>
        { s with root := t, numHashes := s.numHashes + 1 } := by
  rw [insertBlockList_descends, Option.map_map]
  rfl

theorem hashTree_findBlockList (s : HashTree) (digest : DigestBytes) :
    s.findBlockList digest = findBlockList s.root digest :=
  (findBlockList_eq _ _).symm

theorem filerecs_insertFilerec (s : Filerecs) (file : FilerecNode) :
    s.insertFilerec b file = insertFilerec b s.byFileid file :=
  (insertFilerec_descends _ _ _).symm

theorem filerecs_filerecFind (s : Filerecs) (fileid : Int) :
    s.filerecFind fileid = filerecFind s.byFileid fileid :=
  (filerecFind_eq _ _).symm

end Models

-- ---------------------------------------------------------------------------
-- The trees of the results
-- ---------------------------------------------------------------------------

/-- The tree of groups has the keys of the ordered map that stands for it, -/
abbrev GroupsAgree (root : KeyTree DupeExtentsNode) (res : ResultsTree) : Prop :=
  root.HasKeys pairCmp DupeExtentsNode.key (· ∈ res.root)

/-- and the tree of extents in a group those of its ordered set. -/
abbrev ExtentsAgree (root : KeyTree ResultExtent) (dext : DupeExtents) : Prop :=
  root.HasKeys pairCmp ResultExtent.key (· ∈ dext.deExtentsRoot)

section Results

theorem groupsAgree_empty : GroupsAgree .nil .empty :=
  ⟨List.Pairwise.nil, fun _ => iff_of_false Std.TreeMap.not_mem_emptyc fun ⟨_, hin, _⟩ =>
    List.not_mem_nil hin⟩

variable {root : KeyTree DupeExtentsNode} {res : ResultsTree}

theorem GroupsAgree.find (h : GroupsAgree root res) (digest : DigestBytes) (len : Nat) :
    (findDupeExtents root digest len).isSome = (res.findDupeExtents digest len).isSome := by
  have hfind := findDupeExtents_eq root (len, digest)
  rw [hfind, Bool.eq_iff_iff, h.isSome_find_iff, ResultsTree.findDupeExtents,
    Std.TreeMap.mem_iff_isSome_getElem?]

/-- Both abort, or both have the new group. -/
theorem GroupsAgree.insertGroup (h : GroupsAgree root res) (b : Balance DupeExtentsNode)
    {dext : DupeExtentsNode} {g : DupeExtents} (hkey : dext.key = (g.deLen, g.deHash)) :
    Option.Rel GroupsAgree (insertDupeExtents b root dext) (res.insertDupeExtents g) := by
  rw [ResultsTree.insertDupeExtents, ResultsTree.findDupeExtents]
  rcases h.insert_cases insertDupeExtents_descends b dext with
    ⟨hdup, hin⟩ | ⟨root', hnew, hno, hkeys⟩
  · rw [hkey, Std.TreeMap.mem_iff_isSome_getElem?, Option.isSome_iff_exists] at hin
    obtain ⟨g', hg'⟩ := hin
    rw [hdup, hg']
    exact .none
  · rw [hkey] at hno
    rw [hnew, Std.TreeMap.getElem?_eq_none hno]
    refine .some ⟨hkeys.ordered, fun k => ?_⟩
    rw [← hkeys.keys_iff, hkey, ResultsTree.setGroup_root, Std.TreeMap.mem_insert,
      Std.LawfulEqCmp.compare_eq_iff_eq]

/-- `find_alloc_dext` on the tree. A new group lies at the address `addr`. -/
def findAllocDext (b : Balance DupeExtentsNode) (root : KeyTree DupeExtentsNode) (addr : Nat)
    (digest : DigestBytes) (len : Nat) : Option (DupeExtentsNode × KeyTree DupeExtentsNode) :=
  match findDupeExtents root digest len with
  | some dext => some (dext, root)
  | none =>
    let new : DupeExtentsNode := ⟨addr, len, digest⟩
    (insertDupeExtents b root new).map fun root => (new, root)

/-- It looks before it inserts, so it never reaches the abort, and both return one group. -/
theorem GroupsAgree.findAllocDext (h : GroupsAgree root res) (b : Balance DupeExtentsNode)
    (addr : Nat) (digest : DigestBytes) (len : Nat) :
    ∃ dext root' g res', Descents.findAllocDext b root addr digest len = some (dext, root') ∧
      res.findAllocDext digest len = some (g, res') ∧ dext.key = (g.deLen, g.deHash) ∧
      GroupsAgree root' res' := by
  have hfind := h.find digest len
  rw [Descents.findAllocDext, ResultsTree.findAllocDext]
  cases htree : findDupeExtents root digest len with
  | some dext =>
    rw [htree] at hfind
    obtain ⟨g, hg⟩ := Option.isSome_iff_exists.1 hfind.symm
    have hkey : dext.key = (len, digest) :=
      (h.ordered.find_eq_some_iff.1 ((findDupeExtents_eq root (len, digest)).symm.trans htree)).2
    exact ⟨dext, root, g, res, rfl, by rw [hg], hkey.trans (res.keyed _ g hg).symm, h⟩
  | none =>
    rw [htree] at hfind
    have hmap : res.findDupeExtents digest len = none :=
      Option.isNone_iff_eq_none.1 (Option.isSome_eq_false_iff.1 hfind.symm)
    have hinsert : res.insertDupeExtents (dupeExtentsNew digest len) =
        some { res.setGroup (dupeExtentsNew digest len) with numDupes := res.numDupes + 1 } := by
      rw [ResultsTree.insertDupeExtents, show res.findDupeExtents
        (dupeExtentsNew digest len).deHash (dupeExtentsNew digest len).deLen = none from hmap]
    have hkey : (⟨addr, len, digest⟩ : DupeExtentsNode).key =
        ((dupeExtentsNew digest len).deLen, (dupeExtentsNew digest len).deHash) := rfl
    have hnew := h.insertGroup b hkey
    rw [hinsert] at hnew
    simp only [hmap, hinsert]
    generalize insertDupeExtents b root ⟨addr, len, digest⟩ = inserted at hnew
    cases hnew with
    | some hagree => exact ⟨_, _, _, _, rfl, rfl, hkey, hagree⟩

theorem GroupsAgree.eraseGroup (h : GroupsAgree root res) (b : Balance DupeExtentsNode)
    {dext : DupeExtentsNode} (hin : dext ∈ root.inorder) :
    GroupsAgree (b.erase root dext) (res.eraseGroup dext.key) := by
  have hkeys := h.erase (b := b) hin
  refine ⟨hkeys.ordered, fun k => ?_⟩
  rw [← hkeys.keys_iff, ResultsTree.eraseGroup, Std.TreeMap.mem_erase, ne_eq,
    Std.LawfulEqCmp.compare_eq_iff_eq]

variable {extents : KeyTree ResultExtent} {dext : DupeExtents} {e : ResultExtent}

/-- Both have the extent already, or both have it now. -/
theorem ExtentsAgree.insertExtent (h : ExtentsAgree extents dext) (b : Balance ResultExtent)
    (e : ResultExtent) :
    Option.Rel ExtentsAgree (insertExtentRb b extents e) (insertExtentListFree dext e) := by
  rcases h.insert_cases insertExtentRb_descends b e with
    ⟨hdup, hin⟩ | ⟨extents', hnew, hno, hkeys⟩
  · rw [hdup, insertExtentListFree, dif_pos hin]
    exact .none
  · rw [hnew, insertExtentListFree, dif_neg hno]
    refine .some ⟨hkeys.ordered, fun k => ?_⟩
    rw [← hkeys.keys_iff, Std.TreeSet.mem_insert, Std.LawfulEqCmp.compare_eq_iff_eq]

theorem ExtentsAgree.unlink (h : ExtentsAgree extents dext) (b : Balance ResultExtent)
    (hin : e ∈ extents.inorder) {dext' : DupeExtents} (hunlink : dext.unlink e = some dext') :
    ExtentsAgree (b.erase extents e) dext' := by
  have hkeys := h.erase (b := b) hin
  refine ⟨hkeys.ordered, fun k => ?_⟩
  obtain ⟨_, hdext⟩ := Option.dite_none_right_eq_some.1 hunlink
  obtain rfl := Option.some.inj hdext
  rw [← hkeys.keys_iff, Std.TreeSet.mem_erase, ne_eq, Std.LawfulEqCmp.compare_eq_iff_eq]

end Results

end Descents

end Duperemove
