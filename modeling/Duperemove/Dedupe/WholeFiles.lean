-- SUMMARY: The whole-file pass of a round: the workers' changes to the hashfile in any order, and what the extent pass loads then.
import Duperemove.Dbfile.Load
import Duperemove.Dedupe.Worker
import Duperemove.Lib.Steps

/-!
# The whole-file pass

`__process_duplicates` first dedupes groups of identical files, and waits for the
workers. Then it loads the extents that are still duplicates. A worker changes the
hashfile under `dbfile_lock`: it removes files that are gone while it opens its group,
and in the end it drops the extent rows of all files of the group. The sections of all
workers come in any order. Each group is handed out once, and only its worker changes
it, so what a worker does follows from its group as it was loaded.
-/

namespace Duperemove

/-! ## What a worker does to the hashfile -/

/-- A section under `dbfile_lock` in a whole-file pass: `dbfile_remove_file` for a file
    that is gone, or the loop of `extent_dedupe_worker` over its group. -/
inductive HashOp where
  | removeFile (filename : String)
  | removeExtentHashes (fileids : List Nat)
  deriving DecidableEq, Repr

def HashOp.apply (t : Tables) : HashOp → Tables
  | removeFile filename => t.deleteFile filename
  | removeExtentHashes fileids => fileids.foldl Tables.removeExtentHashes t

/-- The sections of a worker, when the driver returned with `d`. -/
def DupeExtents.hashOps (g : DupeExtents) (d : Driver) : List HashOp :=
  d.removed.filterMap (fun file =>
    (g.deExtents.find? fun e => e.eFile.addr = file).map fun e =>
      .removeFile e.eFile.filename) ++
  [.removeExtentHashes (g.deExtents.map fun e => e.eFile.fileid)]

/-- What the surroundings answer to each worker, by the key of its group, and the two
    counters as it finds them. -/
structure PassWorld where
  world : Nat × DigestBytes → DedupeWorld
  fsBlocksize : Nat × DigestBytes → Nat
  kernBytes : Nat × DigestBytes → Nat

/-- `dedupe_extent_list` on a group. -/
def PassWorld.driver (w : PassWorld) (g : DupeExtents) : DriverExit × Driver :=
  dedupeExtentList (w.world (g.deLen, g.deHash)) g.deLen (g.deExtents.map ResultExtent.place)
    (w.fsBlocksize (g.deLen, g.deHash)) (w.kernBytes (g.deLen, g.deHash))

/-- The groups that `push_extents` hands out. -/
def ResultsTree.handedOut (res : ResultsTree) : List DupeExtents :=
  res.groups.filter fun g => decide (2 ≤ g.deNumDupes)

/-- The sections of all workers, one group after the other. -/
def PassWorld.hashOps (w : PassWorld) (res : ResultsTree) : List HashOp :=
  res.handedOut.flatMap fun g => g.hashOps (w.driver g).2

/-! ## The pass -/

/-- The hashfile, and what each worker still does to it. -/
structure WholeFilePass where
  tables : Tables
  left : List (List HashOp)

namespace WholeFilePass

def start (t : Tables) (w : PassWorld) (res : ResultsTree) : WholeFilePass :=
  ⟨t, res.handedOut.map fun g => g.hashOps (w.driver g).2⟩

/-- The next section of the worker `i`. -/
def step (s : WholeFilePass) (i : Nat) : Option WholeFilePass :=
  match s.left[i]? with
  | some (op :: ops) => some ⟨op.apply s.tables, s.left.set i ops⟩
  | _ => none

def run (s : WholeFilePass) (schedule : List Nat) : Option WholeFilePass := schedule.foldlM step s

/-- The pool is empty. -/
def Done (s : WholeFilePass) : Prop := ∀ ops ∈ s.left, ops = []

instance (s : WholeFilePass) : Decidable s.Done :=
  inferInstanceAs (Decidable (∀ ops ∈ s.left, ops = []))

end WholeFilePass

/-- A round with `-d`, without `partial` and `only_whole_files`, up to the load of the
    extents: the identical files that it loads into `s`, the pass over them, in which all
    workers return, and the extents that it loads into `s'`. -/
structure RoundUpToExtents (db : Hashfile) (seq : Nat) (w : PassWorld) (s : LoadState)
    (pass : WholeFilePass) (s' : LoadState) : Prop where
  sameFiles : ∃ rows, rows.Perm (getDuplicateFiles db.toTables seq) ∧
    dbfileLoadSameFiles rows ⟨.empty, .empty⟩ = some s
  returned : ∀ g ∈ s.res.handedOut, (w.driver g).1 = .returned
  deduped : ∃ schedule, (WholeFilePass.start db.toTables w s.res).run schedule = some pass ∧
    pass.Done
  extents : ∃ rows, rows.Perm (getDuplicateExtents pass.tables seq) ∧
    dbfileLoadExtentHashes pass.tables rows ⟨s.reg, .empty⟩ = some s'

/-- A file took part in a dedupe that ended with status zero, as a destination or as the
    target. -/
def Driver.Succeeded (d : Driver) (file : FileId) : Prop :=
  ∃ ctxt ∈ d.finished, ∃ r ∈ ctxt.requests,
    r.reqStatus = 0 ∧ (r.reqFile = file ∨ ctxt.ioctlFile = file)

/-! ## Sections that stay done -/

/-- Tables that have lost rows. -/
structure Tables.Shrinks (t t' : Tables) : Prop where
  constraints : t'.Constraints
  files : t'.files ⊆ t.files
  blocks : t'.blocks ⊆ t.blocks

theorem Tables.Shrinks.trans {t t' t'' : Tables} (h : t.Shrinks t') (h' : t'.Shrinks t'') :
    t.Shrinks t'' :=
  ⟨h'.constraints, List.Subset.trans h'.files h.files, List.Subset.trans h'.blocks h.blocks⟩

namespace HashOp

/-- What a section leaves, and no other section undoes. -/
def Holds (t : Tables) : HashOp → Prop
  | removeFile filename => ∀ f ∈ t.files, f.filename ≠ filename
  | removeExtentHashes fileids => ∀ x ∈ t.extents, x.fileid ∉ fileids

variable {t : Tables}

/-- The loop over a group is one deletion. -/
theorem foldl_removeExtentHashes (fileids : List Nat) :
    fileids.foldl Tables.removeExtentHashes t =
      { t with extents := t.extents.filter fun x => decide (x.fileid ∉ fileids) } := by
  induction fileids generalizing t with
  | nil => simp
  | cons id fileids ih =>
    rw [List.foldl_cons, ih]
    simp only [Tables.removeExtentHashes, List.filter_filter, List.mem_cons, not_or,
      Bool.decide_and, Bool.and_comm]

theorem mem_foldl_removeExtentHashes {fileids : List Nat} {x : ExtentRow} :
    x ∈ (fileids.foldl Tables.removeExtentHashes t).extents ↔
      x ∈ t.extents ∧ x.fileid ∉ fileids := by
  rw [foldl_removeExtentHashes, List.mem_filter, decide_eq_true_eq]

/-- A section removes rows only. -/
theorem files_subset (op : HashOp) (t : Tables) : (op.apply t).files ⊆ t.files := by
  cases op with
  | removeFile filename => exact fun f hf => (Tables.mem_deleteFiles_files.1 hf).1
  | removeExtentHashes fileids =>
    rw [apply, foldl_removeExtentHashes]
    exact List.Subset.refl _

theorem extents_subset (op : HashOp) (t : Tables) : (op.apply t).extents ⊆ t.extents := by
  cases op with
  | removeFile filename => exact fun x hx => (Tables.mem_deleteFiles_extents.1 hx).1
  | removeExtentHashes fileids => exact fun x hx => (mem_foldl_removeExtentHashes.1 hx).1

theorem blocks_subset (op : HashOp) (t : Tables) : (op.apply t).blocks ⊆ t.blocks := by
  cases op with
  | removeFile filename => exact fun b hb => (Tables.mem_deleteFiles_blocks.1 hb).1
  | removeExtentHashes fileids =>
    rw [apply, foldl_removeExtentHashes]
    exact List.Subset.refl _

theorem holds_apply (op : HashOp) (t : Tables) : op.Holds (op.apply t) := by
  cases op with
  | removeFile filename =>
    intro f hf
    have := (Tables.mem_deleteFiles_files.1 hf).2
    simpa using this
  | removeExtentHashes fileids => exact fun x hx => (mem_foldl_removeExtentHashes.1 hx).2

theorem Holds.keep {op : HashOp} (h : op.Holds t) (other : HashOp) : op.Holds (other.apply t) := by
  cases op with
  | removeFile filename => exact fun f hf => h f (other.files_subset t hf)
  | removeExtentHashes fileids => exact fun x hx => h x (other.extents_subset t hx)

theorem constraints_apply (h : t.Constraints) (op : HashOp) : (op.apply t).Constraints := by
  cases op with
  | removeFile filename => exact h.deleteFiles _
  | removeExtentHashes fileids =>
    rw [apply]
    induction fileids generalizing t with
    | nil => exact h
    | cons id fileids ih => exact ih (h.removeExtentHashes id)

theorem shrinks_apply (h : t.Constraints) (op : HashOp) : t.Shrinks (op.apply t) :=
  ⟨constraints_apply h op, op.files_subset t, op.blocks_subset t⟩

/-- Two deletions of files are one. -/
theorem deleteFiles_deleteFiles (p q : FileRow → Bool) :
    (t.deleteFiles p).deleteFiles q = t.deleteFiles fun f => p f || q f := by
  simp only [Tables.deleteFiles, List.filter_filter, Tables.mk.injEq]
  refine ⟨?_, ?_, ?_⟩
  · refine List.filter_congr fun f _ => ?_
    cases p f <;> cases q f <;> rfl
  · refine List.filter_congr fun e _ => ?_
    rw [Bool.eq_iff_iff]
    simp
    grind
  · refine List.filter_congr fun b _ => ?_
    rw [Bool.eq_iff_iff]
    simp
    grind

theorem shrinks_foldl (h : t.Constraints) (ops : List HashOp) :
    t.Shrinks (ops.foldl (fun t op => op.apply t) t) := by
  induction ops generalizing t with
  | nil => exact ⟨h, List.Subset.refl _, List.Subset.refl _⟩
  | cons op ops ih => exact (shrinks_apply h op).trans (ih (constraints_apply h op))

/-- The order of two sections does not matter. -/
theorem apply_comm (t : Tables) (a b : HashOp) : b.apply (a.apply t) = a.apply (b.apply t) := by
  cases a with
  | removeFile name =>
    cases b with
    | removeFile name' =>
      simp only [apply, Tables.deleteFile, deleteFiles_deleteFiles, Bool.or_comm]
    | removeExtentHashes ids =>
      simp only [apply, Tables.deleteFile, foldl_removeExtentHashes, Tables.deleteFiles,
        List.filter_filter, Bool.and_comm]
  | removeExtentHashes ids =>
    cases b with
    | removeFile name =>
      simp only [apply, Tables.deleteFile, foldl_removeExtentHashes, Tables.deleteFiles,
        List.filter_filter, Bool.and_comm]
    | removeExtentHashes ids' =>
      simp only [apply, foldl_removeExtentHashes, List.filter_filter, Bool.and_comm]

end HashOp

/-! ## The pass comes to its end -/

namespace WholeFilePass

variable {s s' : WholeFilePass} {work : List (List HashOp)}

/-- A worker takes one section from what is left. -/
theorem perm_flatten_set {left : List (List HashOp)} {i : Nat} {op : HashOp} {ops : List HashOp}
    (hi : left[i]? = some (op :: ops)) :
    left.flatten.Perm (op :: (left.set i ops).flatten) := by
  induction left generalizing i with
  | nil => cases hi
  | cons l left ih =>
    cases i with
    | zero =>
      cases hi
      rfl
    | succ i =>
      rw [List.set_cons_succ, List.flatten_cons, List.flatten_cons]
      exact ((ih (by simpa using hi)).append_left l).trans List.perm_middle

/-- The invariant: every section of the work is still ahead or has its effect. -/
structure Progress (work : List (List HashOp)) (s : WholeFilePass) : Prop where
  constraints : s.tables.Constraints
  ops : ∀ op ∈ work.flatten, op ∈ s.left.flatten ∨ op.Holds s.tables

theorem Progress.step {i : Nat} (h : Progress work s) (hstep : s.step i = some s') :
    Progress work s' := by
  unfold WholeFilePass.step at hstep
  split at hstep
  · rename_i op ops hi
    cases hstep
    refine ⟨HashOp.constraints_apply h.constraints op, fun x hx => ?_⟩
    rcases h.ops x hx with hahead | hholds
    · rcases List.mem_cons.1 ((perm_flatten_set hi).subset hahead) with rfl | hstill
      · exact .inr (x.holds_apply s.tables)
      · exact .inl hstill
    · exact .inr (hholds.keep op)
  · cases hstep

/-- A pass that is done has done all of its work. -/
theorem holds_of_done {db : Hashfile} {w : PassWorld} {res : ResultsTree} {schedule : List Nat}
    (hrun : (start db.toTables w res).run schedule = some s) (hdone : s.Done) :
    s.tables.Constraints ∧
      ∀ g ∈ res.handedOut, ∀ op ∈ g.hashOps (w.driver g).2, op.Holds s.tables := by
  have hprogress : Progress (start db.toTables w res).left s :=
    Steps.run_keeps (Progress _) (fun _ _ _ _ h hstep => h.step hstep)
      ⟨db.constraints, fun _ hop => .inl hop⟩ hrun
  refine ⟨hprogress.constraints, fun g hg op hop => ?_⟩
  have hin : op ∈ (start db.toTables w res).left.flatten :=
    List.mem_flatten.2 ⟨_, List.mem_map_of_mem hg, hop⟩
  rcases hprogress.ops op hin with hahead | hholds
  · obtain ⟨ops, hops, hop⟩ := List.mem_flatten.1 hahead
    rw [hdone ops hops] at hop
    cases hop
  · exact hholds

/-- What the sections that are left come to does not change on the way. -/
theorem foldl_left_of_step {i : Nat} (hstep : s.step i = some s') :
    s'.left.flatten.foldl (fun t op => op.apply t) s'.tables =
      s.left.flatten.foldl (fun t op => op.apply t) s.tables := by
  unfold WholeFilePass.step at hstep
  split at hstep
  · rename_i op ops hi
    cases hstep
    exact ((perm_flatten_set hi).foldl_eq' (fun a _ b _ t => HashOp.apply_comm t a b) _).symm
  · cases hstep

theorem run_shrinks {schedule : List Nat} (h : s.tables.Constraints)
    (hrun : s.run schedule = some s') : s.tables.Shrinks s'.tables := by
  refine Steps.run_keeps (fun s' : WholeFilePass => s.tables.Shrinks s'.tables)
    (fun i _ s₁ s₂ hs hstep => ?_) ⟨h, List.Subset.refl _, List.Subset.refl _⟩ hrun
  unfold WholeFilePass.step at hstep
  split at hstep
  · cases hstep
    exact hs.trans (HashOp.shrinks_apply hs.constraints _)
  · cases hstep

/-- In every order of the workers, a pass that is done leaves what the sections leave one
    group after the other. -/
theorem tables_of_done {t : Tables} {w : PassWorld} {res : ResultsTree} {schedule : List Nat}
    (hrun : (start t w res).run schedule = some s) (hdone : s.Done) :
    s.tables = (w.hashOps res).foldl (fun t op => op.apply t) t := by
  have hkept := Steps.run_keeps (fun s' : WholeFilePass =>
    s'.left.flatten.foldl (fun t op => op.apply t) s'.tables =
      (start t w res).left.flatten.foldl (fun t op => op.apply t) t)
    (fun _ _ _ _ h hstep => (foldl_left_of_step hstep).trans h) rfl hrun
  rw [List.flatten_eq_nil_iff.2 hdone, List.foldl_nil] at hkept
  rw [hkept, PassWorld.hashOps, List.flatMap_def]
  rfl

end WholeFilePass

/-! ## What the sequential worker does -/

section Worker

variable {w : DedupeWorld} {scan : ResultExtent → Option Nat} {t t' : Tables}
variable {res res' : ResultsTree} {p : Nat × DigestBytes} {g : DupeExtents} {d : Driver}
variable {fsBlocksize kernBytes : Nat}

theorem removeGone_eq (g : DupeExtents) (t : Tables) (gone : List FileId) :
    removeGone g t gone =
      (gone.filterMap fun file => (g.deExtents.find? fun e => e.eFile.addr = file).map fun e =>
        HashOp.removeFile e.eFile.filename).foldl HashOp.apply t := by
  rw [List.foldl_filterMap, removeGone]
  congr 1
  funext t file
  cases g.deExtents.find? fun e => e.eFile.addr = file with
  | none => rfl
  | some e => rfl

theorem foldl_hashOps (g : DupeExtents) (d : Driver) (t : Tables) :
    (g.hashOps d).foldl HashOp.apply t =
      updateHashfile true scan (removeGone g t d.removed) g.deExtents := by
  rw [DupeExtents.hashOps, List.foldl_append, ← removeGone_eq]
  simp only [List.foldl_cons, List.foldl_nil, HashOp.apply, List.foldl_map, updateHashfile, if_true]

/-- On a tree that still has its group, the worker runs the driver on the group as it was
    loaded, and its sections one after the other are what it does to the hashfile. -/
theorem extentDedupeWorker_hashOps (hg : res.root[p]? = some g) (hn : 2 ≤ g.deNumDupes)
    (hwhole : g.WholeFiles)
    (hrun : extentDedupeWorker w true scan t res p fsBlocksize kernBytes = .returned t' res' d) :
    dedupeExtentList w g.deLen (g.deExtents.map ResultExtent.place) fsBlocksize kernBytes =
        (.returned, d) ∧
      t' = (g.hashOps d).foldl HashOp.apply t := by
  obtain ⟨hlist, hend⟩ := extentDedupeWorker_returned hg hn hwhole hrun
  refine ⟨hlist, ?_⟩
  rw [hend, foldl_hashOps]

end Worker

/-! ## What the extent pass loads -/

section Round

variable {db : Hashfile} {seq : Nat} {w : PassWorld} {s s' : LoadState} {pass : WholeFilePass}
variable {g : DupeExtents}

/-- The groups of identical files: they are handed out, and hold whole files. -/
theorem RoundUpToExtents.wholeFiles (h : RoundUpToExtents db seq w s pass s')
    (hg : g ∈ s.res.groups) : g ∈ s.res.handedOut ∧ 2 ≤ g.deNumDupes ∧ g.WholeFiles := by
  obtain ⟨rows, hrows, hload⟩ := h.sameFiles
  obtain ⟨s₁, hload₁, -, hexact⟩ := dbfileLoadSameFiles_exact db seq .empty hrows
  rw [hload] at hload₁
  cases hload₁
  have hfind : s.res.findDupeExtents g.deHash g.deLen = some g := ResultsTree.mem_groups_iff.1 hg
  have hgroup := hexact g.deHash g.deLen
  have htwo := hgroup.two_le g hfind
  refine ⟨List.mem_filter.2 ⟨hg, decide_eq_true htwo⟩, htwo, fun e he => ?_⟩
  have hmember := (hgroup.members_perm g hfind).subset (List.mem_map_of_mem he)
  obtain ⟨f, -, hf⟩ := List.mem_map.1 hmember
  exact ⟨(congrArg Member.loff hf).symm, (congrArg Member.poff hf).symm⟩

/-- A file that took part in a dedupe is one of the group. -/
theorem mem_of_succeeded {file : FileId} (hn : 2 ≤ g.deNumDupes) (hwhole : g.WholeFiles)
    (hreturned : (w.driver g).1 = .returned) (hfile : (w.driver g).2.Succeeded file) :
    ∃ e ∈ g.deExtents, e.eFile.addr = file := by
  have hlen : 2 ≤ (g.deExtents.map ResultExtent.place).length := by
    rw [List.length_map, ← g.numDupes_eq]
    exact hn
  have hoff : ∀ x ∈ g.deExtents.map ResultExtent.place, x.eLoff < 2 ^ 64 := by
    intro x hx
    obtain ⟨e, he, rfl⟩ := List.mem_map.1 hx
    have hzero : e.place.eLoff = 0 := (hwhole e he).1
    rw [hzero]
    exact Nat.two_pow_pos 64
  have hrun : dedupeExtentList (w.world (g.deLen, g.deHash)) g.deLen
      (g.deExtents.map ResultExtent.place) (w.fsBlocksize (g.deLen, g.deHash))
      (w.kernBytes (g.deLen, g.deHash)) = (.returned, (w.driver g).2) :=
    Prod.ext hreturned rfl
  obtain ⟨hfins, -⟩ := dedupeExtentList_outcome hlen hoff _ _ hrun (by decide)
  have hplace : ∀ x ∈ opening (w.world (g.deLen, g.deHash)) (g.deExtents.map ResultExtent.place),
      ∃ e ∈ g.deExtents, e.eFile.addr = x.eFile := by
    intro x hx
    obtain ⟨e, he, rfl⟩ := List.mem_map.1 (List.mem_filter.1 hx).1
    exact ⟨e, he, rfl⟩
  obtain ⟨ctxt, hctxt, r, hr, -, hfile | hfile⟩ := hfile
  · obtain ⟨e, he, haddr⟩ := hplace r.dest (List.mem_of_mem_tail ((hfins ctxt hctxt).2.2 r hr))
    exact ⟨e, he, haddr.trans hfile⟩
  · obtain ⟨e, he, haddr⟩ := hplace ctxt.source (List.mem_of_mem_head? (hfins ctxt hctxt).1)
    exact ⟨e, he, haddr.trans hfile⟩

/-- A member of a group that the extent pass loads has an extent row. -/
theorem RoundUpToExtents.exists_row (h : RoundUpToExtents db seq w s pass s')
    (hconstraints : pass.tables.Constraints) {g' : DupeExtents} (hg' : g' ∈ s'.res.groups)
    {m : Member} (hm : m ∈ g'.members) : ∃ x ∈ pass.tables.extents, x.fileid = m.fileid := by
  obtain ⟨rows, hrows, hload⟩ := h.extents
  obtain ⟨s₁, hload₁, -, hexact⟩ :=
    dbfileLoadExtentHashes_exact ⟨pass.tables, hconstraints⟩ seq s.reg hrows
  rw [hload] at hload₁
  cases hload₁
  have hfind : s'.res.findDupeExtents g'.deHash g'.deLen = some g' :=
    ResultsTree.mem_groups_iff.1 hg'
  have hmember := ((hexact g'.deHash g'.deLen).members_perm g' hfind).subset hm
  obtain ⟨x, hx, rfl⟩ := List.mem_map.1 hmember
  exact ⟨x, (List.mem_filter.1 hx).1, rfl⟩

/-- In every round, whatever the order of the workers, the open failures and the answers
    of the kernel: a file that took part in a successful dedupe of whole files is one of
    its group, and no group that the extent pass loads has a member in it. -/
theorem wholeFile_shields (h : RoundUpToExtents db seq w s pass s') :
    ∀ g ∈ s.res.groups, ∀ file, (w.driver g).2.Succeeded file →
      ∃ e ∈ g.deExtents, e.eFile.addr = file ∧
        ∀ g' ∈ s'.res.groups, ∀ m ∈ g'.members, m.fileid ≠ e.eFile.fileid := by
  intro g hg file hfile
  obtain ⟨hout, hn, hwhole⟩ := h.wholeFiles hg
  obtain ⟨schedule, hrun, hdone⟩ := h.deduped
  obtain ⟨hconstraints, hholds⟩ := WholeFilePass.holds_of_done hrun hdone
  obtain ⟨e, he, haddr⟩ := mem_of_succeeded hn hwhole (h.returned g hout) hfile
  refine ⟨e, he, haddr, fun g' hg' m hm hid => ?_⟩
  obtain ⟨x, hx, hxid⟩ := h.exists_row hconstraints hg' hm
  have hdropped : (HashOp.removeExtentHashes (g.deExtents.map fun e => e.eFile.fileid)).Holds
      pass.tables :=
    hholds g hout _ (List.mem_append_right _ List.mem_cons_self)
  exact hdropped x hx (List.mem_map.2 ⟨e, he, (hxid.trans hid).symm⟩)

end Round

instance (d : Driver) (file : FileId) : Decidable (d.Succeeded file) :=
  inferInstanceAs (Decidable (∃ ctxt ∈ d.finished, ∃ r ∈ ctxt.requests, _))

/-- All files open, and the kernel dedupes a page at once. -/
def pagePass : PassWorld := ⟨fun _ => pageWorld, fun _ => 0, fun _ => 0⟩

/-- The two copies of `twoCopies` are deduped, and their extents are not loaded. -/
theorem wholeFile_shields_twoCopies :
    ∃ s pass s', RoundUpToExtents twoCopies 2 pagePass s pass s' ∧
      ∃ g ∈ s.res.groups, ∃ file, (pagePass.driver g).2.Succeeded file ∧
        ∃ e ∈ g.deExtents, e.eFile.addr = file ∧
          ∀ g' ∈ s'.res.groups, ∀ m ∈ g'.members, m.fileid ≠ e.eFile.fileid := by
  have hround : ((dbfileLoadSameFiles (getDuplicateFiles twoCopies.toTables 2)
      ⟨.empty, .empty⟩).bind fun s =>
        ((WholeFilePass.start twoCopies.toTables pagePass s.res).run [0]).bind fun pass =>
          (dbfileLoadExtentHashes pass.tables (getDuplicateExtents pass.tables 2)
            ⟨s.reg, .empty⟩).map fun _ => decide
              ((∀ g ∈ s.res.handedOut, (pagePass.driver g).1 = .returned) ∧ pass.left = [[]] ∧
                ∃ g ∈ s.res.groups, (pagePass.driver g).2.Succeeded 1)) = some true := by
    decide +kernel
  obtain ⟨s, hload, hround⟩ := Option.bind_eq_some_iff.1 hround
  obtain ⟨pass, hrun, hround⟩ := Option.bind_eq_some_iff.1 hround
  obtain ⟨s', hload', hall⟩ := Option.map_eq_some_iff.1 hround
  obtain ⟨hreturned, hleft, g, hg, hfile⟩ := of_decide_eq_true hall
  have hdone : pass.Done := by
    intro ops hops
    rw [hleft] at hops
    exact List.mem_singleton.1 hops
  have h : RoundUpToExtents twoCopies 2 pagePass s pass s' :=
    ⟨⟨_, List.Perm.refl _, hload⟩, hreturned, ⟨[0], hrun, hdone⟩, _, List.Perm.refl _, hload'⟩
  exact ⟨s, pass, s', h, g, hg, 1, hfile, wholeFile_shields h g hg 1 hfile⟩

end Duperemove
