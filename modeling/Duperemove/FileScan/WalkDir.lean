-- SUMMARY: Which files a run lists: `scan_file` on each argument and `walk_dir` below it, against the places of the directory tree.
import Duperemove.Dedupe.Fdupes
import Duperemove.FileScan.LockedFs

/-!
# The listing

`scan_file` takes a path of the user, and `walk_dir` goes through a directory and those below
it. Both look at the exclude patterns, the type and the filesystem of what they come across,
and hand the regular files to `__scan_file`, which may end the run. An entry that fails to be
stated, or a directory that does not open, is skipped with what lies below it.

A directory is what `readdir` returns. Each entry comes with what the system answers about it.
`arrives` judges a place of the tree by itself: by the entries on the way to it. The walk hands
out what arrives from the places, in their order, and nothing else.
-/

namespace Duperemove

/-- `struct statx`, as far as the listing reads it. -/
structure StatX where
  mask : Nat
  mode : FileMode
  ino : Nat
  size : Nat
  mtime : Nat
  dev : Nat
  deriving DecidableEq, Repr

def statxBasicStats : Nat := 0x7ff

/-- What the system answers while `check_file` looks at a path. -/
structure PathAnswers where
  configRead : Bool
  lookups : FsLookups
  statfsAgain : Bool
  fsUuid : Uuid
  onBtrfs : Bool

/-- An entry of a directory: its name, its type unless that is `DT_UNKNOWN`, `statx` of the
    entry itself and of its path, and whether `opendir` works on it. -/
structure Dirent where
  name : String
  dType : Option FileMode
  lstat : Option StatX
  stat : Option StatX
  answers : PathAnswers
  opens : Bool

/-- What `readdir` returns, entry by entry, with what is in an entry when it is a directory:
    to the end, or to an error. -/
inductive Listing where
  | ended
  | failed
  | entry (e : Dirent) (below rest : Listing)

/-- A path of the user, with what the system answers about it. -/
structure Argument where
  realpath : Option String
  stat : Option StatX
  answers : PathAnswers
  opens : Bool
  below : Listing

/-- The options that the listing reads, the hashfile's UUID and `fnmatch`. -/
structure ListOptions where
  recurseDirs : Bool
  excludes : List String
  fnmatch : String → String → Bool
  cfgUuid : Uuid

/-- What is handed to `__scan_file`. -/
structure FoundFile where
  path : String
  stat : StatX
  deriving DecidableEq, Repr

-- ---------------------------------------------------------------------------
-- The walk
-- ---------------------------------------------------------------------------

def strlen (s : String) : Nat := s.utf8ByteSize

def isExcluded (o : ListOptions) (name : String) : Bool :=
  o.excludes.any fun pattern => o.fnmatch pattern name

/-- The call of `check_file` for a path. -/
def checkCall (o : ListOptions) (path : String) (st : StatX) (a : PathAnswers)
    (parentChecked : Bool) : CheckCall where
  excluded := isExcluded o path
  mode := st.mode
  size := st.size
  parentChecked := parentChecked
  dev := st.dev
  configRead := a.configRead
  lookups := a.lookups
  statfsAgain := a.statfsAgain
  fsUuid := a.fsUuid
  onBtrfs := a.onBtrfs

/-- `get_dirent_type`. `none` is `DT_UNKNOWN`. -/
def getDirentType (e : Dirent) : Option FileMode :=
  match e.dType with
  | some type => some type
  | none => (e.lstat.filter fun st => st.mask &&& statxBasicStats ≠ 0).map StatX.mode

def childPath (path name : String) : String :=
  if path = "/" then "/" ++ name else path ++ "/" ++ name

variable {σ : Type}

/-- `__scan_file`, with its assertion that the file is a regular one. The rest of it is `scan`,
    which says whether it fails. `none` is an abort. -/
def scanRegular (scan : σ → FoundFile → σ × Bool) (f : FoundFile) (fs : LockedFs) (s : σ) :
    Option (Bool × LockedFs × σ) :=
  if f.stat.mode ≠ .reg then none
  else
    let (s, fatal) := scan s f
    some (fatal, fs, s)

/-- The loop of `walk_dir`: whether it ends on an error, the locked filesystem, and what the
    scan has by then. The test of the mask in front of `check_file` is an or, so it never
    holds. -/
def walkDir (o : ListOptions) (scan : σ → FoundFile → σ × Bool) (path : String) :
    Listing → LockedFs → σ → Option (Bool × LockedFs × σ)
  | .ended, fs, s => some (false, fs, s)
  | .failed, fs, s => some (false, fs, s)
  | .entry e below rest, fs, s =>
    let next := walkDir o scan path rest
    if e.name = "." ∨ e.name = ".." then next fs s
    else
      let type := getDirentType e
      if type ≠ some .reg ∧ ¬(o.recurseDirs = true ∧ type = some .dir) then next fs s
      else if strlen path + strlen e.name > pathMax then none
      else
        let child := childPath path e.name
        match e.stat.filter fun st => st.mask ||| statxBasicStats ≠ 0 with
        | none => next fs s
        | some st =>
          match checkFile o.cfgUuid fs (checkCall o child st e.answers true) with
          | (false, fs) => next fs s
          | (true, fs) =>
            let ret :=
              if type = some .reg then scanRegular scan ⟨child, st⟩ fs s
              else if e.opens then walkDir o scan child below fs s
              else some (false, fs, s)
            match ret with
            | some (false, fs, s) => next fs s
            | ret => ret

def scanFile (o : ListOptions) (scan : σ → FoundFile → σ × Bool) (a : Argument) (fs : LockedFs)
    (s : σ) : Option (Bool × LockedFs × σ) :=
  match a.realpath with
  | none => some (false, fs, s)
  | some path =>
    match a.stat.filter fun st => st.mask &&& statxBasicStats ≠ 0 with
    | none => some (false, fs, s)
    | some st =>
      match checkFile o.cfgUuid fs (checkCall o path st a.answers false) with
      | (false, fs) => some (false, fs, s)
      | (true, fs) =>
        if st.mode = .reg then scanRegular scan ⟨path, st⟩ fs s
        else if a.opens then walkDir o scan path a.below fs s
        else some (false, fs, s)

/-- `scan_files_from_cmdline`. -/
def scanFilesFromCmdline (o : ListOptions) (scan : σ → FoundFile → σ × Bool) :
    List Argument → LockedFs → σ → Option (Bool × LockedFs × σ)
  | [], fs, s => some (false, fs, s)
  | a :: args, fs, s =>
    match scanFile o scan a fs s with
    | some (false, fs, s) => scanFilesFromCmdline o scan args fs s
    | ret => ret

-- ---------------------------------------------------------------------------
-- Places
-- ---------------------------------------------------------------------------

/-- The entries on the way to each place, in the order of the walk. -/
def Listing.places : Listing → List (List Dirent)
  | .ended => []
  | .failed => []
  | .entry e below rest => [e] :: below.places.map (e :: ·) ++ rest.places

inductive Arrival where
  | file (f : FoundFile)
  | abort
  deriving DecidableEq, Repr

/-- What arrives from a place below `path`, on a filesystem that is locked. An entry aborts when
    its path gets too long, or when it is no regular file after all. -/
def arrives (o : ListOptions) (fs : LockedFs) (path : String) : List Dirent → Option Arrival
  | [] => none
  | e :: below =>
    let type := getDirentType e
    if (e.name = "." ∨ e.name = "..") ∨
        (type ≠ some .reg ∧ ¬(o.recurseDirs = true ∧ type = some .dir)) then none
    else if strlen path + strlen e.name > pathMax then
      if below = [] then some .abort else none
    else
      let child := childPath path e.name
      match e.stat with
      | none => none
      | some st =>
        if (checkFile o.cfgUuid fs (checkCall o child st e.answers true)).1 = false then none
        else if type = some .reg then
          if below ≠ [] then none
          else if st.mode = .reg then some (.file ⟨child, st⟩)
          else some .abort
        else if e.opens then arrives o fs child below
        else none

/-- Hand out what arrives, up to an error or an abort. -/
def handOut (scan : σ → FoundFile → σ × Bool) : List Arrival → σ → Option (Bool × σ)
  | [], s => some (false, s)
  | .abort :: _, _ => none
  | .file f :: rest, s =>
    match scan s f with
    | (s, true) => some (true, s)
    | (s, false) => handOut scan rest s

-- ---------------------------------------------------------------------------
-- The walk hands out what arrives
-- ---------------------------------------------------------------------------

/-- The filesystem and its device are known. -/
def LockedFs.Settled (fs : LockedFs) : Prop := fs.uuid ≠ nullUuid ∧ fs.dev ≠ 0

section Walk

variable {o : ListOptions} {scan : σ → FoundFile → σ × Bool} {fs fs' : LockedFs} {path : String}
  {e : Dirent} {l below rest : Listing} {chain : List Dirent} {st : StatX} {s : σ}

theorem LockedFs.Settled.checkLocked (h : fs.Settled) (call : CheckCall) :
    (Duperemove.checkLocked fs call).2 = fs := by
  rw [Duperemove.checkLocked, if_neg h.2]
  repeat' split
  all_goals rfl

/-- Then it stays as it is. -/
theorem LockedFs.Settled.checkFile (h : fs.Settled) (cfgUuid : Uuid) (call : CheckCall) :
    (Duperemove.checkFile cfgUuid fs call).2 = fs := by
  rw [Duperemove.checkFile]
  split
  · rfl
  · rw [if_neg h.1]
    exact h.checkLocked call

/-- The or with a constant is never zero. -/
theorem filter_mask_or (st : Option StatX) :
    (st.filter fun st => st.mask ||| statxBasicStats ≠ 0) = st := by
  cases st with
  | none => rfl
  | some st =>
    refine Option.filter_some_pos (decide_eq_true fun h => ?_)
    have hbasic := (Nat.or_eq_zero_iff.1 h).2
    cases hbasic

theorem handOut_append (a b : List Arrival) (s : σ) :
    handOut scan (a ++ b) s = (handOut scan a s).bind fun (fatal, s) =>
      if fatal then some (true, s) else handOut scan b s := by
  induction a generalizing s with
  | nil => rfl
  | cons x a ih =>
    cases x with
    | abort => rfl
    | file f =>
      simp only [List.cons_append, handOut]
      cases scan s f with
      | mk s fatal =>
        cases fatal with
        | true => rfl
        | false => exact ih s

/-- What arrives from the places of a directory. -/
def arrivals (o : ListOptions) (fs : LockedFs) (path : String) (l : Listing) : List Arrival :=
  l.places.filterMap (arrives o fs path)

/-- What arrives from an entry and from what is below it. -/
def entryArrivals (o : ListOptions) (fs : LockedFs) (path : String) (e : Dirent)
    (below : Listing) : List Arrival :=
  (arrives o fs path [e]).toList ++
    below.places.filterMap fun chain => arrives o fs path (e :: chain)

theorem arrivals_entry : arrivals o fs path (.entry e below rest) =
    entryArrivals o fs path e below ++ arrivals o fs path rest := by
  rw [arrivals, Listing.places, List.cons_append, List.filterMap_cons, List.filterMap_append,
    List.filterMap_map, entryArrivals]
  cases arrives o fs path [e] <;> rfl

theorem ne_nil_of_mem_places (h : chain ∈ l.places) : chain ≠ [] := by
  induction l with
  | ended => cases h
  | failed => cases h
  | entry e below rest _ ihrest =>
    rw [Listing.places, List.cons_append, List.mem_cons, List.mem_append, List.mem_map] at h
    rcases h with rfl | ⟨_, _, rfl⟩ | h
    · exact List.cons_ne_nil e []
    · exact List.cons_ne_nil e _
    · exact ihrest h

/-- An entry that is skipped hides what is below it. -/
theorem entryArrivals_skip (h : ∀ chain, arrives o fs path (e :: chain) = none) :
    entryArrivals o fs path e below = [] := by
  simp [entryArrivals, h]

/-- On a settled filesystem the walk hands out what arrives from its places. -/
theorem walkDir_eq (h : fs.Settled) (path : String) (l : Listing) (s : σ) :
    walkDir o scan path l fs s =
      (handOut scan (arrivals o fs path l) s).map fun (fatal, s) => (fatal, fs, s) := by
  induction l generalizing path s with
  | ended => rfl
  | failed => rfl
  | entry e below rest ihbelow ihrest =>
    have hskip : (∀ chain, arrives o fs path (e :: chain) = none) →
        walkDir o scan path rest fs s = (handOut scan
          (entryArrivals o fs path e below ++ arrivals o fs path rest) s).map
            fun (fatal, s) => (fatal, fs, s) := by
      intro hnone
      rw [entryArrivals_skip hnone, List.nil_append]
      exact ihrest path s
    rw [arrivals_entry, walkDir]
    dsimp only
    split
    · next hdots => exact hskip fun chain => by rw [arrives, if_pos (.inl hdots)]
    next hdots =>
    split
    · next htype => exact hskip fun chain => by rw [arrives, if_pos (.inr htype)]
    next htype =>
    split
    · next hlong =>
      rw [entryArrivals, arrives, if_neg (not_or.2 ⟨hdots, htype⟩), if_pos hlong, if_pos rfl]
      rfl
    next hshort =>
    have hcons : ∀ chain, arrives o fs path (e :: chain) =
        match e.stat with
        | none => none
        | some st =>
          if (checkFile o.cfgUuid fs (checkCall o (childPath path e.name) st e.answers true)).1 =
            false then none
          else if getDirentType e = some .reg then
            if chain ≠ [] then none
            else if st.mode = .reg then some (.file ⟨childPath path e.name, st⟩)
            else some .abort
          else if e.opens then arrives o fs (childPath path e.name) chain
          else none := by
      intro chain
      rw [arrives, if_neg (not_or.2 ⟨hdots, htype⟩), if_neg hshort]
    rw [filter_mask_or]
    cases hstat : e.stat with
    | none => exact hskip fun chain => by rw [hcons, hstat]
    | some st =>
    simp only [hstat] at hcons
    dsimp only
    have hfs := h.checkFile o.cfgUuid (checkCall o (childPath path e.name) st e.answers true)
    cases hcheck : checkFile o.cfgUuid fs
      (checkCall o (childPath path e.name) st e.answers true) with
    | mk ok fs' =>
    rw [hcheck] at hfs hcons
    obtain rfl : fs' = fs := hfs
    cases ok with
    | false => exact hskip fun chain => by rw [hcons, if_pos rfl]
    | true =>
    simp only [Bool.true_eq_false, if_false] at hcons
    dsimp only
    by_cases hreg : getDirentType e = some .reg
    · -- A regular file: nothing is below it.
      simp only [if_pos hreg] at hcons
      have hbelow : (below.places.filterMap fun chain => arrives o fs' path (e :: chain)) = [] :=
        List.filterMap_eq_nil_iff.2 fun chain hchain => by
          rw [hcons, if_pos (ne_nil_of_mem_places hchain)]
      rw [if_pos hreg, entryArrivals, hbelow, List.append_nil, hcons, scanRegular]
      by_cases hmode : st.mode = .reg
      · rw [if_neg (not_not_intro rfl), if_pos hmode, if_neg (not_not_intro hmode)]
        simp only [Option.toList_some, List.singleton_append, handOut]
        cases scan s ⟨childPath path e.name, st⟩ with
        | mk s fatal =>
          cases fatal with
          | true => rfl
          | false => exact ihrest path s
      · rw [if_neg (not_not_intro rfl), if_neg hmode, if_pos hmode]
        rfl
    · -- A directory: what is below it comes before the next entry.
      simp only [if_neg hreg] at hcons
      have hself : arrives o fs' path [e] = none := by
        rw [hcons]
        split <;> rfl
      rw [if_neg hreg, entryArrivals, hself, Option.toList_none, List.nil_append]
      simp only [hcons]
      cases e.opens with
      | false =>
        simp only [Bool.false_eq_true, if_false, List.filterMap_none, List.nil_append]
        exact ihrest path s
      | true =>
        simp only [if_true, ihbelow]
        rw [← arrivals, handOut_append]
        cases handOut scan (arrivals o fs' (childPath path e.name) below) s with
        | none => rfl
        | some ret =>
          obtain ⟨fatal, s⟩ := ret
          cases fatal with
          | true => rfl
          | false => exact ihrest path s

end Walk

-- ---------------------------------------------------------------------------
-- The way to a file
-- ---------------------------------------------------------------------------

/-- The path of a place below `path`. -/
def pathOf (path : String) (chain : List Dirent) : String :=
  chain.foldl (fun path e => childPath path e.name) path

/-- The test for the locked filesystem, once that is settled. -/
def OnLockedFs (fs : LockedFs) (call : CheckCall) : Prop :=
  if fs.isBtrfs = false then fs.dev = call.dev
  else (getUuid call nullUuid).1 = true ∧ (getUuid call nullUuid).2 = fs.uuid

/-- What an entry of either kind needs: it is looked at, its path is short enough, and
    `check_file` has it. -/
structure Passes (o : ListOptions) (fs : LockedFs) (path : String) (e : Dirent) (st : StatX) :
    Prop where
  name_ne : e.name ≠ "." ∧ e.name ≠ ".."
  short : strlen path + strlen e.name ≤ pathMax
  stat_eq : e.stat = some st
  included : isExcluded o (childPath path e.name) = false
  accepted : (st.mode = .reg ∧ 0 < st.size) ∨ (st.mode = .dir ∧
    OnLockedFs fs (checkCall o (childPath path e.name) st e.answers true))

/-- The walk goes into the entry. -/
structure Enters (o : ListOptions) (fs : LockedFs) (path : String) (e : Dirent) : Prop where
  recurse : o.recurseDirs = true
  type_eq : getDirentType e = some .dir
  passes : ∃ st, Passes o fs path e st
  opens : e.opens = true

/-- The walk hands out the entry. -/
structure Gives (o : ListOptions) (fs : LockedFs) (path : String) (e : Dirent) (f : FoundFile) :
    Prop where
  type_eq : getDirentType e = some .reg
  passes : Passes o fs path e f.stat
  mode_eq : f.stat.mode = .reg
  path_eq : f.path = childPath path e.name

section Way

variable {o : ListOptions} {fs : LockedFs} {path : String} {e : Dirent} {chain : List Dirent}
  {st : StatX} {call : CheckCall} {f : FoundFile}

/-- `check_file` below a directory that was checked. -/
theorem LockedFs.Settled.checkFile_iff (h : fs.Settled) (cfgUuid : Uuid)
    (hparent : call.parentChecked = true) :
    (Duperemove.checkFile cfgUuid fs call).1 = true ↔ call.excluded = false ∧
      ((call.mode = .reg ∧ 0 < call.size) ∨ (call.mode = .dir ∧ OnLockedFs fs call)) := by
  have hlocked : (Duperemove.checkLocked fs call).1 = true ↔ OnLockedFs fs call := by
    rw [Duperemove.checkLocked, if_neg h.2, OnLockedFs]
    cases fs.isBtrfs with
    | false => simp
    | true =>
      simp only [Bool.not_true, Bool.false_eq_true, if_false, Bool.true_eq_false]
      cases getUuid call nullUuid with
      | mk ok uuid => cases ok <;> simp
  rw [Duperemove.checkFile, checkPath, hparent]
  cases call.excluded with
  | true => simp
  | false =>
    cases hmode : call.mode with
    | reg => by_cases hsize : call.size = 0 <;> simp [hsize, Nat.pos_iff_ne_zero]
    | dir => simp [h.1, hlocked]
    | other => simp

/-- `check_file` and the tests in front of it. -/
theorem passes_iff (h : fs.Settled) : Passes o fs path e st ↔
    ¬(e.name = "." ∨ e.name = "..") ∧ ¬strlen path + strlen e.name > pathMax ∧
      e.stat = some st ∧
      (checkFile o.cfgUuid fs (checkCall o (childPath path e.name) st e.answers true)).1 =
        true := by
  rw [h.checkFile_iff o.cfgUuid rfl]
  constructor
  · rintro ⟨hname, hshort, hstat, hincluded, haccepted⟩
    exact ⟨not_or.2 hname, Nat.not_lt.2 hshort, hstat, hincluded, haccepted⟩
  · rintro ⟨hname, hshort, hstat, hincluded, haccepted⟩
    exact ⟨not_or.1 hname, Nat.not_lt.1 hshort, hstat, hincluded, haccepted⟩

/-- One entry of the way. -/
theorem arrives_cons_iff (h : fs.Settled) : arrives o fs path (e :: chain) = some (.file f) ↔
    (chain = [] ∧ Gives o fs path e f) ∨ (chain ≠ [] ∧ Enters o fs path e ∧
      arrives o fs (childPath path e.name) chain = some (.file f)) := by
  constructor
  · intro harrives
    rw [arrives] at harrives
    split at harrives
    · cases harrives
    next hseen =>
    obtain ⟨hname, htype⟩ := not_or.1 hseen
    split at harrives
    · split at harrives <;> cases harrives
    next hshort =>
    dsimp only at harrives
    split at harrives
    · cases harrives
    next st hstat =>
    split at harrives
    · cases harrives
    next hcheck =>
    have hpasses := (passes_iff h).2 ⟨hname, hshort, hstat, eq_true_of_ne_false hcheck⟩
    split at harrives
    · next hreg =>
      split at harrives
      · cases harrives
      next hlast =>
      split at harrives
      · next hmode =>
        cases harrives
        exact .inl ⟨Decidable.not_not.1 hlast, hreg, hpasses, hmode, rfl⟩
      · cases harrives
    next hreg =>
    split at harrives
    · next hopens =>
      have hdir := Decidable.not_not.1 fun hno => htype ⟨hreg, hno⟩
      refine .inr ⟨?_, ⟨hdir.1, hdir.2, ⟨st, hpasses⟩, hopens⟩, harrives⟩
      rintro rfl
      cases harrives
    · cases harrives
  · rintro (⟨rfl, hgives⟩ | ⟨hlong, henters, hrest⟩)
    · obtain ⟨hname, hshort, hstat, hcheck⟩ := (passes_iff h).1 hgives.passes
      have hseen : ¬((e.name = "." ∨ e.name = "..") ∨ (getDirentType e ≠ some .reg ∧
          ¬(o.recurseDirs = true ∧ getDirentType e = some .dir))) :=
        not_or.2 ⟨hname, fun hno => hno.1 hgives.type_eq⟩
      rw [arrives, if_neg hseen, if_neg hshort]
      simp only [hstat, hcheck, hgives.type_eq, hgives.mode_eq, Bool.true_eq_false, if_false,
        if_true, ne_eq, not_true]
      rw [← hgives.path_eq]
    · obtain ⟨st, hpasses⟩ := henters.passes
      obtain ⟨hname, hshort, hstat, hcheck⟩ := (passes_iff h).1 hpasses
      have hseen : ¬((e.name = "." ∨ e.name = "..") ∨ (getDirentType e ≠ some .reg ∧
          ¬(o.recurseDirs = true ∧ getDirentType e = some .dir))) :=
        not_or.2 ⟨hname, fun hno => hno.2 ⟨henters.recurse, henters.type_eq⟩⟩
      rw [arrives, if_neg hseen, if_neg hshort]
      simp only [hstat, hcheck, henters.type_eq, henters.opens, Bool.true_eq_false, if_false,
        Option.some.injEq, reduceCtorEq, if_true]
      exact hrest

/-- A place gives a file when the walk enters each directory on the way, and hands out the last
    entry. -/
theorem arrives_file_iff (h : fs.Settled) : arrives o fs path chain = some (.file f) ↔
    ∃ dirs e, chain = dirs ++ [e] ∧
      (∀ above d below, dirs = above ++ d :: below → Enters o fs (pathOf path above) d) ∧
      Gives o fs (pathOf path dirs) e f := by
  induction chain generalizing path with
  | nil => simp [arrives]
  | cons x chain ih =>
    rw [arrives_cons_iff h, ih]
    constructor
    · rintro (⟨rfl, hgives⟩ | ⟨-, henters, dirs, e, rfl, hdirs, hgives⟩)
      · exact ⟨[], x, rfl, fun above d below hsplit => by simp at hsplit, hgives⟩
      · refine ⟨x :: dirs, e, rfl, fun above d below hsplit => ?_, hgives⟩
        cases above with
        | nil =>
          cases hsplit
          exact henters
        | cons y above =>
          rw [List.cons_append, List.cons.injEq] at hsplit
          obtain ⟨rfl, rfl⟩ := hsplit
          exact hdirs above d below rfl
    · rintro ⟨dirs, e, hsplit, hdirs, hgives⟩
      cases dirs with
      | nil =>
        rw [List.nil_append, List.cons.injEq] at hsplit
        obtain ⟨rfl, rfl⟩ := hsplit
        exact .inl ⟨rfl, hgives⟩
      | cons y dirs =>
        rw [List.cons_append, List.cons.injEq] at hsplit
        obtain ⟨rfl, rfl⟩ := hsplit
        refine .inr ⟨by simp, hdirs [] x dirs rfl, dirs, e, rfl, fun above d below heq => ?_,
          hgives⟩
        exact hdirs (x :: above) d below (by rw [heq]; rfl)

end Way

end Duperemove
