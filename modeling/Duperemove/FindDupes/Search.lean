-- SUMMARY: One round of `__process_duplicates`: the loads, the block-wise search and the trees it hands to dedupe.
import Mathlib.Data.List.Sort
import Duperemove.Dedupe.WholeFiles
import Duperemove.FindDupes.Model
import Duperemove.ResultsTree.Concurrent

/-!
# Searching for duplicates

`__process_duplicates` fills a results tree with the identical files of a batch,
and a second one with its identical extents. With the option `partial` the second
tree also gets the matches that the search workers find block by block. With `-d`
both trees go to `dedupe_results`, and the first one does so before the second one
is loaded: the workers of that pass change the hashfile in between. SQLite returns
the rows of a query in any order, and the workers take their steps in any order.
-/

namespace Duperemove

/-! ## The rows -/

/-- A hashfile with blocks. Sizes and offsets are signed 64-bit numbers in SQLite. -/
structure BlockHashfile extends Hashfile where
  size_lt : ∀ f ∈ files, f.size < 2 ^ 63
  loff_lt : ∀ b ∈ blocks, b.loff < 2 ^ 63

/-- What the three queries of a round return: the rows they select, in any order. -/
structure QueryRows (t : Tables) (seq : Nat) where
  files : List FileRow
  extents : List (ExtentRow × FileRow)
  blocks : List (BlockRow × FileRow)
  files_perm : files.Perm (getDuplicateFiles t seq)
  extents_perm : extents.Perm (getDuplicateExtents t seq)
  blocks_perm : blocks.Perm (getDuplicateBlocks t seq)

/-- The rows in the order of their tables. -/
def QueryRows.inOrder (t : Tables) (seq : Nat) : QueryRows t seq where
  files := getDuplicateFiles t seq
  extents := getDuplicateExtents t seq
  blocks := getDuplicateBlocks t seq
  files_perm := .refl _
  extents_perm := .refl _
  blocks_perm := .refl _

/-- A block is selected at most once. -/
theorem getDuplicateBlocks_sublist (db : Hashfile) (seq : Nat) :
    ((getDuplicateBlocks db.toTables seq).map Prod.fst).Sublist db.blocks := by
  rw [getDuplicateBlocks, selectDuplicates, Sql.whereTrue,
    map_fst_filter_join BlockRow.fileid db.constraints.id_unique]
  exact List.filter_sublist

theorem mem_getDuplicateBlocks {t : Tables} {seq : Nat} {p : BlockRow × FileRow}
    (hp : p ∈ getDuplicateBlocks t seq) : p.1 ∈ t.blocks ∧ p.2 ∈ t.files ∧ p.1.fileid = p.2.id := by
  simp only [getDuplicateBlocks, selectDuplicates, Sql.mem_whereTrue, Sql.mem_join,
    Sql.eq_some_eq_true] at hp
  exact hp.1

/-! ## Block trees -/

namespace BlockHashfile

variable (db : BlockHashfile) (seq : Nat)

/-- The size in the record of a file. -/
def fileSize (fileid : Nat) : Nat :=
  match db.files.find? fun f => decide (f.id = fileid) with
  | none => 0
  | some f => f.size

theorem fileSize_lt (fileid : Nat) : db.fileSize fileid < 2 ^ 63 := by
  unfold fileSize
  split
  · decide
  · rename_i f hf
    exact db.size_lt f (List.mem_of_find?_eq_some hf)

/-- The blocks of a file that the load put into its tree. -/
def loadedBlocks (fileid : Nat) : List FileBlock :=
  ((getDuplicateBlocks db.toTables seq).filter fun p => decide (p.1.fileid = fileid)).map fun p =>
    ⟨p.1.loff, p.1.digest.toList⟩

/-- The block tree of a file in the order of `rb_next`. It is ordered by offset, so
    it does not matter in which order the blocks were inserted. -/
def blockTree (fileid : Nat) : List FileBlock :=
  (db.loadedBlocks seq fileid).insertionSort fun a b => a.bLoff ≤ b.bLoff

theorem mem_loadedBlocks {fileid : Nat} {b : FileBlock} :
    b ∈ db.loadedBlocks seq fileid ↔ ∃ p ∈ getDuplicateBlocks db.toTables seq,
      p.1.fileid = fileid ∧ b = ⟨p.1.loff, p.1.digest.toList⟩ := by
  simp only [loadedBlocks, List.mem_map, List.mem_filter, decide_eq_true_eq, and_assoc,
    eq_comm (a := b)]

/-- `insert_block_into_filerec` never finds a block at the offset of another one. -/
theorem loadedBlocks_nodup (fileid : Nat) :
    ((db.loadedBlocks seq fileid).map FileBlock.bLoff).Nodup := by
  have hunique : (((getDuplicateBlocks db.toTables seq).filter fun p =>
      decide (p.1.fileid = fileid)).map fun p => (p.1.fileid, p.1.loff)).Nodup := by
    refine List.Nodup.sublist ?_ db.constraints.block_unique
    refine List.Sublist.trans ?_ ((getDuplicateBlocks_sublist db.toHashfile seq).map _)
    rw [List.map_map]
    exact List.filter_sublist.map _
  refine List.Nodup.of_map (fun loff => (fileid, loff)) ?_
  rw [loadedBlocks, List.map_map, List.map_map]
  convert hunique using 1
  refine List.map_congr_left fun p hp => ?_
  have hid := of_decide_eq_true (List.mem_filter.1 hp).2
  simp only [Function.comp_apply, hid]

theorem blockTree_sorted (fileid : Nat) :
    (db.blockTree seq fileid).Pairwise fun a b => a.bLoff < b.bLoff := by
  have hsorted := List.pairwise_insertionSort (fun a b : FileBlock => a.bLoff ≤ b.bLoff)
    (db.loadedBlocks seq fileid)
  have hnodup := ((List.perm_insertionSort (fun a b : FileBlock => a.bLoff ≤ b.bLoff)
    (db.loadedBlocks seq fileid)).map FileBlock.bLoff).nodup_iff.2
    (db.loadedBlocks_nodup seq fileid)
  rw [List.Nodup, List.pairwise_map] at hnodup
  exact hsorted.imp₂ (fun _ _ hle hne => Nat.lt_of_le_of_ne hle hne) hnodup

theorem mem_blockTree {fileid : Nat} {b : FileBlock} :
    b ∈ db.blockTree seq fileid ↔ b ∈ db.loadedBlocks seq fileid :=
  List.mem_insertionSort _

/-- The record of a file with its block tree. -/
def blockFile (fileid : Nat) : BlockFile where
  file := fileid
  size := db.fileSize fileid
  blocks := db.blockTree seq fileid
  sorted := db.blockTree_sorted seq fileid
  size_lt := db.fileSize_lt fileid
  bLoff_lt := by
    intro b hb
    obtain ⟨p, hp, -, rfl⟩ := (db.mem_loadedBlocks seq).1 ((db.mem_blockTree seq).1 hb)
    exact db.loff_lt p.1 (mem_getDuplicateBlocks hp).1

/-- `find_filerec_block`: where the block at an offset is in the tree. -/
def findFilerecBlock (fileid loff : Nat) : Option Nat :=
  (db.blockTree seq fileid).findIdx? fun b => decide (b.bLoff = loff)

end BlockHashfile

/-! ## The search -/

/-- The options that a round looks at. -/
structure DedupeOptions where
  runDedupe : Bool
  dedupeSameFile : Bool
  doBlockHash : Bool
  onlyWholeFiles : Bool
  deriving DecidableEq, Repr

/-- The hash with its digests as the bytes that are stored. -/
def Xxh.asBytes (h : Xxh DigestBytes) : Xxh (List Byte) where
  xxh128 := fun m => (h.xxh128 m).toList
  digest := fun chunks => (h.digest chunks).toList
  digest_eq := fun chunks => congrArg Vector.toList (h.digest_eq chunks)

/-- The digest in the first `digestLen` bytes of a buffer. -/
def toDigest (bytes : List Byte) : DigestBytes := Vector.ofFn fun i => bytes.getD i 0

/-- A match that `compare_extents` records between two files. -/
structure FileMatch where
  files : Nat × Nat
  found : BlockMatch
  deriving DecidableEq, Repr

/-- What `record_match` hands to `insert_result`. -/
def FileMatch.pair (reg : Registry) (m : FileMatch) : Option ResultPair :=
  (reg.filerecFind m.files.1).bind fun r => (reg.filerecFind m.files.2).map fun r' =>
    ⟨toDigest m.found.digest, (r, r'), m.found.soff, m.found.eoff⟩

section Search

variable (opts : DedupeOptions) (blocksize : Nat) (h : Xxh DigestBytes)
variable {db : BlockHashfile} {seq : Nat} (rows : QueryRows db.toTables seq)

/-- `dl_list`: the blocks with a digest in the order in which they were inserted. -/
def QueryRows.dlList {t : Tables} (rows : QueryRows t seq) (digest : List Byte) : List BlockRow :=
  (rows.blocks.map Prod.fst).filter fun b => decide (b.digest.toList = digest)

/-- What `search_extent` does with one of the blocks on the list. -/
def searchBlock (fileid : Nat) (x : ExtentRow) (i : Nat) (found : BlockRow) : List FileMatch :=
  if found.fileid = fileid ∧ found.loff = x.loff then []
  else if opts.dedupeSameFile = false ∧ found.fileid = fileid then []
  else
    match db.findFilerecBlock seq found.fileid found.loff with
    | none => []
    | some j =>
      ((compareExtents h.asBytes blocksize (db.blockFile seq fileid)
        (db.blockFile seq found.fileid) i j x.len).getD []).map fun m =>
          ⟨(fileid, found.fileid), m⟩

/-- `search_extent`. The extent that `dbfile_load_one_file_extent` loads is not used. -/
def searchExtent (fileid : Nat) (x : ExtentRow) : List FileMatch :=
  match db.findFilerecBlock seq fileid x.loff with
  | none => []
  | some i =>
    match (db.blockTree seq fileid)[i]? with
    | none => []
    | some block =>
      (rows.dlList block.digest).flatMap
        (@searchBlock opts blocksize h db seq fileid x i)

def searchFileExtents (fileid : Nat) : List FileMatch :=
  (getNondupeExtents db.toTables fileid).flatMap (searchExtent opts blocksize h rows fileid)

/-- The calls of `insert_result` of each job that `find_additional_dedupe` pushes: one
    job for each record, and none for an empty file. A record whose file the whole-file
    pass removed has no row to take its size from, and no extents to search. -/
def searchJobs (reg : Registry) : List (List ResultPair) :=
  reg.byFileid.keys.map fun fileid =>
    if db.fileSize fileid = 0 then []
    else (searchFileExtents opts blocksize h rows fileid).filterMap (FileMatch.pair reg)

/-- The records that `dbfile_load_block_hashes` finds or creates. The blocks are in
    `blockTree` and `dlList` afterwards. -/
def dbfileLoadBlockHashes (t : Tables) (blocks : List (BlockRow × FileRow)) (reg : Registry) :
    Option Registry :=
  blocks.foldlM (fun reg p =>
    (reg.filerecOf p.1.fileid (dbfileLoadOneFilerec t p.1.fileid)).map Prod.snd) reg

/-- `find_additional_dedupe`: the workers run as the schedule says until all of them
    are done. `none` is an abort or a schedule that ends early. -/
def findAdditionalDedupe (reg : Registry) (res : ResultsTree) (schedule : List Nat) :
    Option ResultsTree :=
  ((SearchPool.start res (searchJobs opts blocksize h rows reg)).run schedule).bind fun pool =>
    if ∀ w ∈ pool.workers, w = .idle [] then some pool.res else none

end Search

/-! ## A round -/

/-- A hashfile after it has lost rows. -/
def BlockHashfile.shrunk (db : BlockHashfile) {t : Tables} (h : db.toTables.Shrinks t) :
    BlockHashfile where
  toTables := t
  constraints := h.constraints
  size_lt := fun f hf => db.size_lt f (h.files hf)
  loff_lt := fun b hb => db.loff_lt b (h.blocks hb)

/-- The hashfile behind some sections. -/
def BlockHashfile.behind (db : BlockHashfile) (ops : List HashOp) : BlockHashfile :=
  db.shrunk (HashOp.shrinks_foldl db.constraints ops)

/-- `dedupe_results` on the tree of identical files: the hashfile that the workers leave,
    when they take their sections as the schedule says. `none` is a worker that does not
    return, or a schedule that ends early. -/
def dedupeWholeFiles (w : PassWorld) (schedule : List Nat) (db : BlockHashfile)
    (res : ResultsTree) : Option BlockHashfile :=
  if ∀ g ∈ res.handedOut, (w.driver g).1 = .returned then
    ((WholeFilePass.start db.toTables w res).run schedule).pbind fun pass hrun =>
      if pass.Done then some (db.shrunk (WholeFilePass.run_shrinks db.constraints hrun)) else none
  else none

/-- The order of the workers does not matter. -/
theorem dedupeWholeFiles_eq {w : PassWorld} {schedule : List Nat} {db db' : BlockHashfile}
    {res : ResultsTree} (hpass : dedupeWholeFiles w schedule db res = some db') :
    db' = db.behind (w.hashOps res) := by
  unfold dedupeWholeFiles at hpass
  split at hpass
  · obtain ⟨pass, hrun, hpass⟩ := Option.pbind_eq_some_iff.1 hpass
    split at hpass
    · rename_i hdone
      cases hpass
      have htables := WholeFilePass.tables_of_done hrun hdone
      simp only [BlockHashfile.shrunk, BlockHashfile.behind, htables]
    · cases hpass
  · cases hpass

section Round

variable (opts : DedupeOptions) (blocksize : Nat) (h : Xxh DigestBytes)

/-- The trees that go to `dedupe_results`. Without `-d` they are only printed. -/
def DedupeOptions.toDedupe (trees : List ResultsTree) : List ResultsTree :=
  if opts.runDedupe then trees else []

/-- `__process_duplicates` from the load of the extents on: the trees that it passes to
    `dedupe_results`, with the one before. -/
def loadExtents {seq : Nat} {db : BlockHashfile} (rows : QueryRows db.toTables seq)
    (files : LoadState) (schedule : List Nat) : Option (List ResultsTree) :=
  if opts.onlyWholeFiles then some (opts.toDedupe [files.res])
  else
    (dbfileLoadExtentHashes db.toTables rows.extents ⟨files.reg, .empty⟩).bind fun extents =>
      if opts.doBlockHash then
        (dbfileLoadBlockHashes db.toTables rows.blocks extents.reg).bind fun reg =>
          (findAdditionalDedupe opts blocksize h rows reg extents.res schedule).map fun res =>
            opts.toDedupe [files.res, res]
      else some (opts.toDedupe [files.res, extents.res])

/-- `__process_duplicates`: the trees that it passes to `dedupe_results`. The records
    of the round before are dropped first. What the queries return depends on the
    hashfile at the time. -/
def processDuplicatesRound {seq : Nat} (rows : ∀ t, QueryRows t seq) (w : PassWorld)
    (wholeSchedule schedule : List Nat) (db : BlockHashfile) : Option (List ResultsTree) :=
  (dbfileLoadSameFiles (rows db.toTables).files ⟨.empty, .empty⟩).bind fun files =>
    (if opts.runDedupe then dedupeWholeFiles w wholeSchedule db files.res else some db).bind
      fun db => loadExtents opts blocksize h (rows db.toTables) files schedule

variable {opts blocksize h} in
/-- Without `-d` nothing is deduped. -/
theorem loadExtents_toDedupe {seq : Nat} {db : BlockHashfile} {rows : QueryRows db.toTables seq}
    {files : LoadState} {schedule : List Nat} {trees : List ResultsTree}
    (hrun : opts.runDedupe = false)
    (hload : loadExtents opts blocksize h rows files schedule = some trees) : trees = [] := by
  have hnone : ∀ trees, opts.toDedupe trees = [] := fun trees => by
    rw [DedupeOptions.toDedupe, hrun]
    rfl
  simp only [loadExtents, hnone] at hload
  split at hload
  · cases hload
    rfl
  · obtain ⟨extents, -, hload⟩ := Option.bind_eq_some_iff.1 hload
    split at hload
    · obtain ⟨reg, -, hload⟩ := Option.bind_eq_some_iff.1 hload
      obtain ⟨res, -, htrees⟩ := Option.map_eq_some_iff.1 hload
      exact htrees.symm
    · cases hload
      rfl

end Round

end Duperemove
