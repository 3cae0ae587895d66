-- SUMMARY: The registry of file records, and which calls of `filerec_new` it survives.
import Duperemove.Lib.SearchTree
import Duperemove.Lib.Steps
import Mathlib.Algebra.Ring.Int.Defs
import Mathlib.Algebra.Group.Nat.Defs

/-!
# The registry of file records

A record is in a list, in a search tree by its id, and in a counter. The id is a
database id for the loads, which look a file up before they create its record, and an
inode number for the option `fdupes`, which does not look. Inserting a second record
with an id aborts, so `fdupes` must not see an inode number twice before the records
are freed.
-/

namespace Duperemove

open SearchTree (KeyTree Balance)

-- ---------------------------------------------------------------------------
-- The registry
-- ---------------------------------------------------------------------------

/-- `struct filerec`, as far as the registry needs it. -/
structure FilerecNode where
  addr : Nat
  filename : String
  fileid : Int
  size : Nat
  deriving DecidableEq, Repr

/-- A `uint64_t` that is passed as an `int64_t`. -/
def toInt64 (n : Nat) : Int := if n < 2 ^ 63 then n else n - 2 ^ 64

/-- `cmp_filerecs`: a record with a smaller id sends the descent to its left. -/
def cmpFilerecs (fileid fileid' : Int) : Ordering := compare fileid' fileid

instance : Std.TransCmp cmpFilerecs :=
  inferInstanceAs (Std.TransCmp fun a b : Int => compare b a)

instance : Std.LawfulEqCmp cmpFilerecs :=
  inferInstanceAs (Std.LawfulEqCmp fun a b : Int => compare b a)

/-- `filerec_head`, `filerec_by_fileid` and `num_filerecs`. -/
structure Filerecs where
  head : List FilerecNode
  byFileid : KeyTree FilerecNode
  numFilerecs : Nat
  nextAddr : Nat
  deriving DecidableEq, Repr

namespace Filerecs

variable (b : Balance FilerecNode) (s : Filerecs)

def init : Filerecs := ⟨[], .nil, 0, 0⟩

def filerecFind (fileid : Int) : Option FilerecNode :=
  s.byFileid.find (KeyTree.side cmpFilerecs FilerecNode.fileid fileid)

/-- `insert_filerec`; `none` is its abort. -/
def insertFilerec (file : FilerecNode) : Option (KeyTree FilerecNode) :=
  (s.byFileid.link (KeyTree.side cmpFilerecs FilerecNode.fileid file.fileid) file).map b.insertColor

/-- `filerec_new` -/
def filerecNew (filename : String) (fileid : Int) (size : Nat) :
    Option (FilerecNode × Filerecs) :=
  let file : FilerecNode := ⟨s.nextAddr, filename, fileid, size⟩
  (s.insertFilerec b file).map fun t =>
    (file, ⟨file :: s.head, t, s.numFilerecs + 1, s.nextAddr + 1⟩)

def filerecFree (file : FilerecNode) : Filerecs :=
  { s with
    head := s.head.erase file
    byFileid := b.erase s.byFileid file
    numFilerecs := s.numFilerecs - 1 }

/-- `free_all_filerecs`. The next record is taken before this one is freed. -/
def freeAllFilerecs : Filerecs := s.head.foldl (fun s file => s.filerecFree b file) s

end Filerecs

-- ---------------------------------------------------------------------------
-- The callers
-- ---------------------------------------------------------------------------

/-- What the program does with the registry: a load of a row of the database, a path for the
    option `fdupes` that `statx` knows, or the end of a round. -/
inductive FilerecCall where
  | load (fileid : Int) (filename : String) (size : Nat)
  | fdupes (path : String) (ino size : Nat)
  | freeAll
  deriving DecidableEq, Repr

/-- The registry, and the records that were created and not freed since. -/
structure FilerecRun where
  sys : Filerecs
  live : List FilerecNode
  deriving DecidableEq, Repr

namespace FilerecRun

variable (b : Balance FilerecNode) (r : FilerecRun)

def init : FilerecRun := ⟨.init, []⟩

/-- `filerec_new`, with the new record among the live ones. -/
def create (filename : String) (fileid : Int) (size : Nat) : Option FilerecRun :=
  (r.sys.filerecNew b filename fileid size).map fun (file, sys) => ⟨sys, file :: r.live⟩

/-- One call; `none` is an abort. The loads look first, `add_file_fdupes` does not. -/
def step : FilerecCall → Option FilerecRun
  | .load fileid filename size =>
    match r.sys.filerecFind fileid with
    | some _ => some r
    | none => r.create b filename fileid size
  | .fdupes path ino size => r.create b path (toInt64 ino) size
  | .freeAll => some ⟨r.sys.freeAllFilerecs b, []⟩

def run (calls : List FilerecCall) : Option FilerecRun := calls.foldlM (step b) init

end FilerecRun

-- ---------------------------------------------------------------------------
-- What the registry should do
-- ---------------------------------------------------------------------------

/-- Lookups find the live records, and the counter counts them. -/
structure FilerecRun.Exact (r : FilerecRun) : Prop where
  found : ∀ fileid x, r.sys.filerecFind fileid = some x ↔ x ∈ r.live ∧ x.fileid = fileid
  missing : ∀ fileid, r.sys.filerecFind fileid = none ↔ ∀ x ∈ r.live, x.fileid ≠ fileid
  counted : r.sys.numFilerecs = r.live.length

/-- The calls never abort, and after each of them the registry is exact. -/
def RegistersSafely (b : Balance FilerecNode) (calls : List FilerecCall) : Prop :=
  ∀ done, done <+: calls → ∃ r, FilerecRun.run b done = some r ∧ r.Exact

/-- The inode number of a path is none of the live ids. -/
def FilerecCall.IsFresh (ids : List Int) : FilerecCall → Prop
  | fdupes _ ino _ => toInt64 ino ∉ ids
  | _ => True

/-- The live ids behind a call. -/
def FilerecCall.idsAfter (ids : List Int) : FilerecCall → List Int
  | load fileid _ _ => if fileid ∈ ids then ids else fileid :: ids
  | fdupes _ ino _ => toInt64 ino :: ids
  | freeAll => []

/-- From these live ids on, no path has an inode number that is a live id. -/
def FreshInodes : List Int → List FilerecCall → Prop
  | _, [] => True
  | ids, call :: calls => call.IsFresh ids ∧ FreshInodes (call.idsAfter ids) calls

-- ---------------------------------------------------------------------------
-- The invariant
-- ---------------------------------------------------------------------------

/-- The tree is ordered and holds the live records, and so does the list. -/
structure FilerecRun.Inv (r : FilerecRun) : Prop where
  ordered : r.sys.byFileid.Ordered cmpFilerecs FilerecNode.fileid
  tree : r.sys.byFileid.inorder.Perm r.live
  head : r.sys.head = r.live
  counted : r.sys.numFilerecs = r.live.length

namespace FilerecRun

variable {b : Balance FilerecNode} {r r' : FilerecRun}

theorem inv_init : init.Inv := ⟨List.Pairwise.nil, .refl _, rfl, rfl⟩

theorem Inv.exact (h : r.Inv) : r.Exact where
  found := by
    intro fileid x
    rw [Filerecs.filerecFind, h.ordered.find_eq_some_iff, h.tree.mem_iff]
  missing := by
    intro fileid
    rw [Filerecs.filerecFind, h.ordered.find_eq_none_iff]
    exact forall_congr' fun x => by rw [h.tree.mem_iff]
  counted := h.counted

/-- A record with an id that is not live is created. -/
theorem Inv.create (h : r.Inv) (filename : String) {fileid : Int} (size : Nat)
    (hnew : ∀ x ∈ r.live, x.fileid ≠ fileid) :
    ∃ r', r.create b filename fileid size = some r' ∧ r'.Inv ∧
      r'.live = ⟨r.sys.nextAddr, filename, fileid, size⟩ :: r.live := by
  generalize hfile : (⟨r.sys.nextAddr, filename, fileid, size⟩ : FilerecNode) = file
  have hid : file.fileid = fileid := hfile ▸ rfl
  obtain ⟨t, hlink, hordered, hperm⟩ := h.ordered.exists_link b hid fun x hx =>
    hnew x (h.tree.mem_iff.1 hx)
  refine ⟨⟨⟨file :: r.sys.head, b.insertColor t, r.sys.numFilerecs + 1, r.sys.nextAddr + 1⟩,
    file :: r.live⟩, ?_, ⟨hordered, hperm.trans (h.tree.cons file), ?_, ?_⟩, rfl⟩
  · rw [FilerecRun.create, Filerecs.filerecNew, hfile, Filerecs.insertFilerec, hid, hlink]
    rfl
  · rw [h.head]
  · rw [h.counted, List.length_cons]

/-- A second record with a live id is an abort. -/
theorem Inv.create_eq_none (h : r.Inv) (filename : String) {fileid : Int} (size : Nat)
    (hold : ∃ x ∈ r.live, x.fileid = fileid) : r.create b filename fileid size = none := by
  obtain ⟨x, hx, hid⟩ := hold
  have hlink : r.sys.byFileid.link (KeyTree.side cmpFilerecs FilerecNode.fileid fileid)
      ⟨r.sys.nextAddr, filename, fileid, size⟩ = none :=
    h.ordered.link_eq_none_iff.2 ⟨x, h.tree.mem_iff.2 hx, hid⟩
  rw [FilerecRun.create, Filerecs.filerecNew, Filerecs.insertFilerec, hlink]
  rfl

/-- After all records are freed the registry is empty. -/
theorem Inv.freeAll (h : r.Inv) : (⟨r.sys.freeAllFilerecs b, []⟩ : FilerecRun).Inv := by
  -- Each record that is freed leaves the rest of the list in the tree and in the counter.
  have hfree : ∀ (files : List FilerecNode) (s : Filerecs), (⟨s, files⟩ : FilerecRun).Inv →
      (⟨files.foldl (fun s file => s.filerecFree b file) s, []⟩ : FilerecRun).Inv := by
    intro files
    induction files with
    | nil => exact fun s hs => hs
    | cons file files ih =>
      intro s hs
      refine ih _ ⟨hs.ordered.erase b file, ?_, ?_, ?_⟩
      · have herase := hs.tree.erase file
        rwa [List.erase_cons_head, ← b.inorder_erase] at herase
      · show s.head.erase file = files
        rw [hs.head, List.erase_cons_head]
      · show s.numFilerecs - 1 = files.length
        rw [hs.counted, List.length_cons, Nat.add_sub_cancel]
  rw [Filerecs.freeAllFilerecs, h.head]
  exact hfree r.live r.sys h

-- ---------------------------------------------------------------------------
-- Runs
-- ---------------------------------------------------------------------------

/-- The ids of the live records. -/
def ids (r : FilerecRun) : List Int := r.live.map FilerecNode.fileid

/-- A fresh call does not abort, and changes the live ids as it says. -/
theorem Inv.step (h : r.Inv) {call : FilerecCall} (hfresh : call.IsFresh r.ids) :
    ∃ r', r.step b call = some r' ∧ r'.Inv ∧ r'.ids = call.idsAfter r.ids := by
  have hmem : ∀ fileid, fileid ∈ r.ids ↔ ∃ x ∈ r.live, x.fileid = fileid :=
    fun fileid => List.mem_map
  cases call with
  | load fileid filename size =>
    rw [FilerecRun.step, FilerecCall.idsAfter]
    cases hfind : r.sys.filerecFind fileid with
    | some x =>
      have hin := (hmem fileid).2 ⟨x, (h.exact.found fileid x).1 hfind⟩
      exact ⟨r, rfl, h, (if_pos hin).symm⟩
    | none =>
      have hno := (h.exact.missing fileid).1 hfind
      obtain ⟨r', hcreate, hr', hlive⟩ := h.create (b := b) filename size hno
      refine ⟨r', hcreate, hr', ?_⟩
      rw [ids, hlive, if_neg, List.map_cons]
      · rfl
      · exact fun hin => absurd ((hmem fileid).1 hin) (by push Not; exact hno)
  | fdupes path ino size =>
    have hno : ∀ x ∈ r.live, x.fileid ≠ toInt64 ino :=
      fun x hx hid => hfresh ((hmem _).2 ⟨x, hx, hid⟩)
    obtain ⟨r', hcreate, hr', hlive⟩ := h.create (b := b) path size hno
    refine ⟨r', hcreate, hr', ?_⟩
    rw [ids, hlive, List.map_cons]
    rfl
  | freeAll => exact ⟨_, rfl, h.freeAll, rfl⟩

/-- A call that is not fresh aborts. -/
theorem Inv.step_eq_none (h : r.Inv) {call : FilerecCall} (hold : ¬ call.IsFresh r.ids) :
    r.step b call = none := by
  cases call with
  | load fileid filename size => exact absurd trivial hold
  | fdupes path ino size =>
    rw [FilerecCall.IsFresh, not_not] at hold
    exact h.create_eq_none path size (List.mem_map.1 hold)
  | freeAll => exact absurd trivial hold

/-- From a registry that keeps the invariant, a run of fresh calls ends and keeps it. -/
theorem Inv.run (h : r.Inv) {calls : List FilerecCall} (hfresh : FreshInodes r.ids calls) :
    ∃ r', calls.foldlM (FilerecRun.step b) r = some r' ∧ r'.Inv := by
  induction calls generalizing r with
  | nil => exact ⟨r, rfl, h⟩
  | cons call calls ih =>
    obtain ⟨r₁, hstep, hr₁, hids⟩ := h.step hfresh.1
    obtain ⟨r', hrun, hr'⟩ := ih hr₁ (hids ▸ hfresh.2)
    exact ⟨r', Steps.run_cons.2 ⟨r₁, hstep, hrun⟩, hr'⟩

/-- Calls that do not abort are fresh. -/
theorem Inv.fresh_of_run (h : r.Inv) {calls : List FilerecCall} {r' : FilerecRun}
    (hrun : calls.foldlM (FilerecRun.step b) r = some r') : FreshInodes r.ids calls := by
  induction calls generalizing r with
  | nil => trivial
  | cons call calls ih =>
    obtain ⟨r₁, hstep, hrest⟩ := Steps.run_cons.1 hrun
    by_cases hfresh : call.IsFresh r.ids
    · obtain ⟨r₂, hstep', hr₂, hids⟩ := h.step (b := b) hfresh
      rw [hstep] at hstep'
      cases hstep'
      exact ⟨hfresh, hids ▸ ih hr₂ hrest⟩
    · rw [h.step_eq_none hfresh] at hstep
      cases hstep

end FilerecRun

/-- What precedes fresh calls is fresh. -/
theorem FreshInodes.of_isPrefix {ids : List Int} {done calls : List FilerecCall}
    (h : FreshInodes ids calls) (hdone : done <+: calls) : FreshInodes ids done := by
  obtain ⟨rest, rfl⟩ := hdone
  induction done generalizing ids with
  | nil => trivial
  | cons call done ih => exact ⟨h.1, ih h.2⟩

/-- The registry survives the calls and is exact after each of them if and only if no path
    has an inode number that is a live id. -/
theorem registersSafely_iff (b : Balance FilerecNode) (calls : List FilerecCall) :
    RegistersSafely b calls ↔ FreshInodes [] calls := by
  constructor
  · intro hsafe
    obtain ⟨r, hrun, -⟩ := hsafe calls (List.prefix_refl _)
    exact FilerecRun.inv_init.fresh_of_run hrun
  · intro hfresh done hdone
    obtain ⟨r, hrun, hr⟩ := FilerecRun.inv_init.run (b := b) (hfresh.of_isPrefix hdone)
    exact ⟨r, hrun, hr.exact⟩

/-- Two hard links in one group of the option `fdupes`. -/
theorem not_registersSafely_hardLinks :
    FilerecRun.run (.none FilerecNode) [.fdupes "a" 7 4096, .fdupes "b" 7 4096] = none ∧
      ¬ RegistersSafely (.none FilerecNode) [.fdupes "a" 7 4096, .fdupes "b" 7 4096] := by
  have habort :
      FilerecRun.run (.none FilerecNode) [.fdupes "a" 7 4096, .fdupes "b" 7 4096] = none := by
    decide +kernel
  refine ⟨habort, fun hsafe => ?_⟩
  obtain ⟨r, hrun, -⟩ := hsafe _ (List.prefix_refl _)
  rw [habort] at hrun
  cases hrun

end Duperemove
