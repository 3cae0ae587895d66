-- SUMMARY: The option `fdupes`: which groups of files that are read from stdin are deduped as a whole.
import Duperemove.Dedupe.Coverage
import Duperemove.Dedupe.Ranges
import Duperemove.Filerec
import Mathlib.Data.List.Nodup

/-!
# Groups from stdin

`process_fdupes` reads paths, and at an empty line it dedupes the files that it has
read since the last one. `fdupes_dedupe` walks over them, newest first, and collects
those that open in contexts of 120: the first one becomes the source, the others are
its destinations. A context is deduped when it is full, or when its latest destination
is the last file of the walk. So a rest stays behind when the last file does not open,
or when it is the only one in its context, and a group without an empty line behind it
is not deduped at all.
-/

namespace Duperemove

open SearchTree (Balance)

-- ---------------------------------------------------------------------------
-- `fdupes_dedupe`
-- ---------------------------------------------------------------------------

/-- What the program asks of its surroundings, for each group: what `statx` says about a
    path, as the inode number and the size, and the errno of opening it. -/
structure FdupesWorld where
  statx : Nat → String → Option (Nat × Nat)
  opens : Nat → String → Option Nat
  kernel : Nat → KernelAnswer
  fuel : Nat

/-- How a function ends: with 0, with the errno of an ioctl, or not at all. `stuck` is a call
    of `dedupe_extents` that did not end within its bound. -/
inductive FdupesExit where
  | returned
  | failed
  | aborted
  | stuck
  deriving DecidableEq, Repr

/-- The variables of `fdupes_dedupe`, with the calls of `dedupe_extents` as they started. -/
structure FdupesLoop where
  ctxt : Option DedupeCtxt
  openFiles : List FileId
  fsBlocksize : Nat
  ioctls : Nat
  kernBytes : Nat
  submitted : List DedupeRun
  deriving DecidableEq, Repr

inductive FdupesRound where
  | next (d : FdupesLoop)
  | stop (exit : FdupesExit) (d : FdupesLoop)
  deriving DecidableEq, Repr

/-- Dedupe a context and process its results. -/
def flushFdupes (w : FdupesWorld) (d : FdupesLoop) (ctxt : DedupeCtxt) : FdupesRound :=
  let d : FdupesLoop :=
    { d with submitted := d.submitted ++ [.start ctxt d.fsBlocksize d.ioctls] }
  match dedupeExtents w.kernel w.fuel ctxt d.fsBlocksize d.ioctls with
  | none => .stop .stuck d
  | some s =>
    let d : FdupesLoop := { d with fsBlocksize := s.fsBlocksize, ioctls := s.ioctls }
    match s.pc with
    | .returned ret =>
      if ret ≠ 0 then .stop .failed d
      else
        match processDedupeResults s.ctxt d.kernBytes with
        | some (some walk) =>
          .next { d with ctxt := none, openFiles := [], kernBytes := walk.kernBytes }
        | _ => .stop .aborted d
    | _ => .stop .aborted d

/-- One round of the loop of `fdupes_dedupe`. -/
def fdupesRound (w : FdupesWorld) (group : Nat) (last : Bool) (file : FilerecNode)
    (d : FdupesLoop) : FdupesRound :=
  match filerecOpenOnce (fun _ => w.opens group file.filename) file.addr d.openFiles with
  | (some _, _) => .next d
  | (none, openFiles) =>
    let d : FdupesLoop := { d with openFiles := openFiles }
    match d.ctxt with
    | none => .next { d with ctxt := some (newDedupeCtxt maxDedupesPerIoctl 0 file.size file.addr) }
    | some ctxt =>
      match addExtentToDedupe ctxt 0 file.addr with
      | none => .stop .aborted d
      | some (ret, ctxt) =>
        let d : FdupesLoop := { d with ctxt := some ctxt }
        if ret = 0 ∨ last = true then flushFdupes w d ctxt else .next d

def fdupesLoop (w : FdupesWorld) (group : Nat) : List FilerecNode → FdupesLoop →
    FdupesExit × FdupesLoop
  | [], d => (.returned, d)
  | file :: files, d =>
    match fdupesRound w group files.isEmpty file d with
    | .next d => fdupesLoop w group files d
    | .stop exit d => (exit, d)

/-- A call of `fdupes_dedupe`: the files it walked over, and its calls of
    `dedupe_extents`. -/
structure FdupesCall where
  files : List FilerecNode
  submitted : List DedupeRun
  deriving DecidableEq, Repr

structure FdupesState where
  sys : Filerecs
  fsBlocksize : Nat
  ioctls : Nat
  calls : List FdupesCall
  deriving DecidableEq, Repr

def FdupesState.init : FdupesState := ⟨.init, 0, 0, []⟩

def fdupesDedupe (w : FdupesWorld) (b : Balance FilerecNode) (s : FdupesState) :
    FdupesExit × FdupesState :=
  match fdupesLoop w s.calls.length s.sys.head ⟨none, [], s.fsBlocksize, s.ioctls, 0, []⟩ with
  | (exit, d) => (exit,
    { sys := s.sys.freeAllFilerecs b
      fsBlocksize := d.fsBlocksize
      ioctls := d.ioctls
      calls := s.calls ++ [⟨s.sys.head, d.submitted⟩] })

-- ---------------------------------------------------------------------------
-- `process_fdupes`
-- ---------------------------------------------------------------------------

def pathMax : Nat := 4096

/-- `add_file_fdupes`; `none` is the abort of `filerec_new`. -/
def addFileFdupes (w : FdupesWorld) (b : Balance FilerecNode) (path : String) (s : FdupesState) :
    Option FdupesState :=
  match w.statx s.calls.length path with
  | none => some s
  | some (ino, size) =>
    (s.sys.filerecNew b path (toInt64 ino) size).map fun (_, sys) => { s with sys := sys }

/-- `process_fdupes` on the lines of stdin, without the newlines at their ends. -/
def processFdupes (w : FdupesWorld) (b : Balance FilerecNode) : List String → FdupesState →
    FdupesExit × FdupesState
  | [], s => (.returned, s)
  | line :: lines, s =>
    if line = "" then
      match fdupesDedupe w b s with
      | (.returned, s) => processFdupes w b lines { s with sys := s.sys.freeAllFilerecs b }
      | (exit, s) => (exit, s)
    else if line.utf8ByteSize > pathMax - 1 then processFdupes w b lines s
    else
      match addFileFdupes w b line s with
      | none => (.aborted, s)
      | some s => processFdupes w b lines s

-- ---------------------------------------------------------------------------
-- Groups
-- ---------------------------------------------------------------------------

/-- The groups of a stream: those with an empty line behind them, and the lines behind the
    last one. Two empty lines in a row have a group without files between them. -/
def groupsOf : List String → List (List String) × List String
  | [] => ([], [])
  | line :: lines =>
    if line = "" then ([] :: (groupsOf lines).1, (groupsOf lines).2)
    else
      match groupsOf lines with
      | ([], rest) => ([], line :: rest)
      | (group :: groups, rest) => ((line :: group) :: groups, rest)

/-- The files of a group that open. -/
def FdupesWorld.opening (w : FdupesWorld) (k : Nat) (group : List String) : List String :=
  group.filter fun path => (w.opens k path).isNone

/-- The paths of a group are files of one size with distinct inode numbers. -/
structure FdupesWorld.SameSize (w : FdupesWorld) (k : Nat) (group : List String) : Prop where
  paths : ∀ path ∈ group, path.utf8ByteSize ≤ pathMax - 1
  stat : ∃ size < 2 ^ 64, ∀ path ∈ group, ∃ ino < 2 ^ 64, w.statx k path = some (ino, size)
  distinct : (group.map fun path => (w.statx k path).map Prod.fst).Nodup

/-- The state is in front of an ioctl that has the file as its source or among its
    destinations. -/
def DedupeRun.Involves (s : DedupeRun) (file : FileId) : Prop :=
  s.pc = .ioctl ∧ (s.ctxt.ioctlFile = file ∨
    ∃ i < s.ctxt.same.destCount, (s.ctxt.same.infoAt i).destFd = file)

/-- A call of `dedupe_extents` issues a request for the file. -/
def DedupeRun.Issues (kernel : Nat → KernelAnswer) (start : DedupeRun) (file : FileId) : Prop :=
  ∃ s, DedupeRun.Reaches kernel start s ∧ s.Involves file

/-- A request for the file with this name was issued in a call of `fdupes_dedupe`. -/
def FdupesCall.Requests (kernel : Nat → KernelAnswer) (call : FdupesCall) (path : String) : Prop :=
  ∃ file ∈ call.files, file.filename = path ∧
    ∃ start ∈ call.submitted, start.Issues kernel file.addr

/-- When at least two files of a group open, each of them is in a request for the group. -/
def DedupesWholeGroups (w : FdupesWorld) (lines : List String) (s : FdupesState) : Prop :=
  ∀ (k : Nat) (group : List String),
    ((groupsOf lines).1 ++ [(groupsOf lines).2])[k]? = some group →
      2 ≤ (w.opening k group).length →
        ∃ call, s.calls[k]? = some call ∧ ∀ path ∈ w.opening k group, call.Requests w.kernel path

/-- The files of a group that open leave no rest in contexts of 120, or one of at least two
    and the first path of the group opens. -/
def FdupesWorld.LeavesNoRest (w : FdupesWorld) (k : Nat) (group : List String) : Prop :=
  (w.opening k group).length % maxDedupesPerIoctl ≠ 1 ∧
    ((w.opening k group).length % maxDedupesPerIoctl = 0 ∨
      ∃ path, group.head? = some path ∧ w.opens k path = none)

/-- Each group with two files that open has an empty line behind it, and leaves no rest. -/
def FlushesAllGroups (w : FdupesWorld) (lines : List String) : Prop :=
  ∀ (k : Nat) (group : List String),
    ((groupsOf lines).1 ++ [(groupsOf lines).2])[k]? = some group →
      2 ≤ (w.opening k group).length →
        k < (groupsOf lines).1.length ∧ w.LeavesNoRest k group

-- ---------------------------------------------------------------------------
-- The requests of a context
-- ---------------------------------------------------------------------------

section Issues

variable {n len : Nat} {src file : FileId} {ds : List Extent} {kernel : Nat → KernelAnswer}

/-- The ioctls are for the source file, from the first one on. -/
theorem ioctlFile_iterate (kernel : Nat → KernelAnswer) (start : DedupeRun) (m : Nat) :
    ((DedupeRun.step kernel)^[m] start).ctxt.ioctlFile = start.ctxt.ioctlFile := by
  induction m with
  | zero => rfl
  | succ m ih =>
    rw [Function.iterate_succ_apply']
    exact (congrArg Extent.eFile (step_source kernel _).1).trans ih

/-- An ioctl is for the source file or for one of the files that were queued. -/
theorem DedupeRun.Sound.of_issues {start : DedupeRun} (hsound : start.Sound ds 0 len)
    (hissues : start.Issues kernel file) :
    start.ctxt.ioctlFile = file ∨ ∃ e ∈ ds, e.eFile = file := by
  obtain ⟨s, ⟨m, rfl⟩, hpc, hfile | ⟨i, hi, hdest⟩⟩ := hissues
  · exact .inl ((ioctlFile_iterate kernel start m).symm.trans hfile)
  · have hvisible : ((DedupeRun.step kernel)^[m] start).Visible := by
      rw [DedupeRun.Visible, hpc]
      trivial
    have hs := reaches_sound hsound hvisible
    obtain ⟨hqueued, hidx⟩ := hs.inv.submitted hpc
    have hmem := List.mem_range.2 hi
    rw [← hidx] at hmem
    obtain ⟨r, hr, rfl⟩ := List.mem_map.1 hmem
    have hserves := hs.serves r (List.mem_append_left _ (List.mem_append_right _ hr))
    refine .inr ⟨r.dest, List.mem_of_getElem? hserves.added, ?_⟩
    exact ((hs.submits hpc).dests r hr).1.symm.trans hdest

/-- A filled context is submitted as a whole: its requests are for its source and for its
    destinations. -/
theorem issues_iff (hn : 0 < n) (hne : ds ≠ []) (hroom : ds.length ≤ destsFor n)
    (hoff : ∀ e ∈ ds, e.eLoff < 2 ^ 64) (hlen : len < 2 ^ 64) (fsBlocksize ioctls : Nat) :
    (DedupeRun.start (filledCtxt n 0 len src ds) fsBlocksize ioctls).Issues kernel file ↔
      src = file ∨ ∃ e ∈ ds, e.eFile = file := by
  generalize hstart : DedupeRun.start (filledCtxt n 0 len src ds) fsBlocksize ioctls = start
  have hsound : start.Sound ds 0 len :=
    hstart ▸ start_sound hn hroom hoff (Nat.two_pow_pos 64) hlen fsBlocksize ioctls
  have hsrc : start.ctxt.ioctlFile = src := by
    rw [← hstart]
    rfl
  constructor
  · intro hissues
    rw [← hsrc]
    exact hsound.of_issues hissues
  · -- The first ioctl is for all that is queued.
    intro hfile
    have hpc : start.pc = .loopHead := by
      rw [← hstart]
      rfl
    have hqueued : start.ctxt.queued = ds.mapIdx fun i e => newDedupeReq i e.eFile e.eLoff := by
      rw [← hstart]
      rfl
    have hsome : start.ctxt.queued ≠ [] := by
      rw [hqueued, ne_eq, List.mapIdx_eq_nil_iff]
      exact hne
    obtain ⟨m, hleap, -⟩ := (turn_accelerates kernel (addedIdents ds)).leaps start hsound.inv
      hsound.visible
    have hfirst : (start.turn kernel).Sound ds 0 len := turn_sound hsound
    obtain ⟨-, -, -, hprogress, -⟩ :=
      @DedupeRun.Sound.turn_loopHead ds 0 len kernel start hsound hpc hsome
    obtain ⟨numQueued, hfill⟩ := populateDedupeRequest_eq hsound.inv hpc
    have hioctl : (start.turn kernel).pc = .ioctl := by
      rw [DedupeRun.turn_loopHead hpc hsome hfill]
    refine ⟨start.turn kernel, ⟨m + 1, hleap⟩, hioctl, ?_⟩
    rcases hfile with rfl | ⟨e, he, rfl⟩
    · exact .inl (hleap ▸ (ioctlFile_iterate kernel start (m + 1)).trans hsrc)
    · right
      obtain ⟨-, hidx⟩ := hfirst.inv.submitted hioctl
      obtain ⟨r, hr, hreq⟩ : ∃ r ∈ (start.turn kernel).ctxt.inProgress, r.reqFile = e.eFile := by
        obtain ⟨i, hi, rfl⟩ := List.mem_iff_getElem.1 he
        have hlen : i < (numbered 0 start.ctxt.queued).length := by simp [hqueued, hi]
        refine ⟨(numbered 0 start.ctxt.queued)[i], ?_, ?_⟩
        · rw [hprogress]
          exact List.getElem_mem _
        · simp [numbered, hqueued, newDedupeReq]
      refine ⟨r.reqIdx, ?_, ((hfirst.submits hioctl).dests r hr).1.trans hreq⟩
      rw [← List.mem_range, ← hidx]
      exact List.mem_map_of_mem hr

/-- When its ioctls succeed, `dedupe_extents` returns 0. -/
theorem dedupeExtents_returned_zero (hn : 0 < n) (hne : ds ≠ []) (hroom : ds.length ≤ destsFor n)
    (hzero : ∀ i, (kernel i).ret = 0) {fuel fsBlocksize ioctls : Nat} {s : DedupeRun}
    (hrun : dedupeExtents kernel fuel (filledCtxt n 0 len src ds) fsBlocksize ioctls = some s) :
    s.pc = .returned 0 := by
  have hover : (∃ ret, s.pc = .returned ret) ∨ s.pc = .aborted := by
    have hleave : ∀ s r, True → DedupeRun.round kernel s = .leave r →
        (∃ ret, r.pc = .returned ret) ∨ r.pc = .aborted := by
      intro s r _ hround
      unfold DedupeRun.round at hround
      cases hpc : s.pc <;> rw [hpc] at hround <;> cases hround
      · exact .inl ⟨_, hpc⟩
      · exact .inr hpc
    exact Loop.run_partial (fun _ => True) (fun _ _ _ _ => trivial) hleave fuel _ trivial hrun
  have hret : ∀ ret, s.pc = .returned ret → ret = 0 := by
    refine dedupeExtents_keeps (fun s => ∀ ret, s.pc = .returned ret → ret = 0) ?_ ?_ hrun
    · intro s hs ret hpc
      unfold DedupeRun.step at hpc
      split at hpc
      · unfold DedupeRun.stepLoopHead at hpc
        split at hpc <;> cases hpc
        rfl
      · unfold DedupeRun.stepPopulating at hpc
        split at hpc
        · cases hpc
        · split at hpc <;> cases hpc
      · unfold DedupeRun.stepIoctl at hpc
        simp only [hzero, ne_eq, not_true, if_false] at hpc
        split at hpc <;> cases hpc
      · unfold DedupeRun.stepProcessing at hpc
        split at hpc <;> cases hpc
      · exact hs ret hpc
      · exact hs ret hpc
    · intro ret hpc
      cases hpc
  rcases hover with ⟨ret, hpc⟩ | habort
  · rw [hpc, hret ret hpc]
  · exact absurd habort (dedupeExtents_returned hn hne hroom hrun).1

end Issues

-- ---------------------------------------------------------------------------
-- The loop
-- ---------------------------------------------------------------------------

/-- The context for a source and its destinations. -/
def batchCtxt (size : Nat) : List FileId → Option DedupeCtxt
  | [] => none
  | src :: dests =>
    some (filledCtxt maxDedupesPerIoctl 0 size src (dests.map fun file => ⟨file, 0⟩))

/-- The files of `done` are those in a request, and `cur` waits in a context. -/
structure FdupesLoop.Tracks (d : FdupesLoop) (kernel : Nat → KernelAnswer) (size : Nat)
    (done cur : List FileId) : Prop where
  ctxt : d.ctxt = batchCtxt size cur
  opened : ∀ file ∈ d.openFiles, file ∈ done ++ cur
  issued : ∀ file, (∃ start ∈ d.submitted, start.Issues kernel file) ↔ file ∈ done

section Loop

variable {w : FdupesWorld} {d : FdupesLoop} {k size : Nat} {done cur : List FileId}

/-- A flush of two files or more has requests for all of them. -/
theorem flushFdupes_tracks (hzero : ∀ i, (w.kernel i).ret = 0) (hsize : size < 2 ^ 64)
    (h : d.Tracks w.kernel size done cur) (hsome : 2 ≤ cur.length)
    (hfull : cur.length ≤ maxDedupesPerIoctl) {ctxt : DedupeCtxt} (hctxt : d.ctxt = some ctxt) :
    (∃ d', flushFdupes w d ctxt = .stop .stuck d') ∨
      ∃ d', flushFdupes w d ctxt = .next d' ∧ d'.Tracks w.kernel size (done ++ cur) [] := by
  obtain ⟨src, dests, rfl⟩ := List.exists_cons_of_length_pos (by omega : 0 < cur.length)
  have hbatch : ctxt = filledCtxt maxDedupesPerIoctl 0 size src (dests.map fun file => ⟨file, 0⟩) :=
    Option.some.inj (hctxt.symm.trans h.ctxt)
  rw [List.length_cons] at hsome hfull
  have hne : (dests.map fun file => (⟨file, 0⟩ : Extent)) ≠ [] := by
    rw [ne_eq, List.map_eq_nil_iff]
    rintro rfl
    simp at hsome
  have hroom : (dests.map fun file => (⟨file, 0⟩ : Extent)).length ≤
      destsFor maxDedupesPerIoctl := by
    rw [List.length_map, destsFor, Nat.min_self]
    omega
  have hissues : ∀ file, (DedupeRun.start ctxt d.fsBlocksize d.ioctls).Issues w.kernel file ↔
      file ∈ src :: dests := by
    intro file
    rw [hbatch, issues_iff (by decide) hne hroom (by simp) hsize]
    simp [eq_comm]
  unfold flushFdupes
  dsimp only
  cases hrun : dedupeExtents w.kernel w.fuel ctxt d.fsBlocksize d.ioctls with
  | none => exact .inl ⟨_, rfl⟩
  | some s =>
    right
    rw [hbatch] at hrun
    have hret := dedupeExtents_returned_zero (by decide) hne hroom hzero hrun
    obtain ⟨walk, hwalk⟩ := (dedupeExtents_returned (by decide) hne hroom hrun).2 hret d.kernBytes
    simp only [hret, hwalk, ne_eq, not_true, if_false]
    refine ⟨_, rfl, rfl, fun file hfile => absurd hfile List.not_mem_nil, fun file => ?_⟩
    simp only [List.mem_append, List.mem_singleton, or_and_right, exists_or, exists_eq_left]
    rw [h.issued, hissues]

/-- A file that does not open is skipped. -/
theorem fdupesRound_unopened {file : FilerecNode} {errno : Nat} (last : Bool)
    (hnew : file.addr ∉ d.openFiles) (hopen : w.opens k file.filename = some errno) :
    fdupesRound w k last file d = .next d := by
  unfold fdupesRound filerecOpenOnce
  rw [if_neg hnew, hopen]

/-- A file is queued behind the others of the batch, with the number of those that still
    fit. -/
theorem addExtentToDedupe_batch (size src file : Nat) {dests : List Nat}
    (hshort : (src :: dests).length < maxDedupesPerIoctl) :
    addExtentToDedupe (filledCtxt maxDedupesPerIoctl 0 size src
        (dests.map fun file => ⟨file, 0⟩)) 0 file =
      some (destsFor maxDedupesPerIoctl - (dests.length + 1), filledCtxt maxDedupesPerIoctl 0
        size src ((dests ++ [file]).map fun file => ⟨file, 0⟩)) := by
  have hroom : (dests.map fun file => (⟨file, 0⟩ : Extent)).length <
      destsFor maxDedupesPerIoctl := by
    rw [List.length_cons] at hshort
    rw [List.length_map, destsFor, Nat.min_self]
    omega
  have hfilled := @addExtentToDedupe_filled maxDedupesPerIoctl 0 size src (by decide) _ hroom
    ⟨file, 0⟩
  rw [List.map_append, List.map_singleton]
  rwa [List.length_map] at hfilled

/-- A file that opens joins the context, which is flushed when it is full or the file is
    the last one. -/
theorem fdupesRound_opened (hzero : ∀ i, (w.kernel i).ret = 0) (hsize : size < 2 ^ 64)
    (h : d.Tracks w.kernel size done cur) (hshort : cur.length < maxDedupesPerIoctl)
    {file : FilerecNode} (last : Bool) (hfile : file.size = size)
    (hnew : file.addr ∉ done ++ cur) (hopen : w.opens k file.filename = none) :
    (∃ d', fdupesRound w k last file d = .stop .stuck d') ∨
      ∃ d', fdupesRound w k last file d = .next d' ∧
        if cur ≠ [] ∧ (cur.length + 1 = maxDedupesPerIoctl ∨ last = true)
          then d'.Tracks w.kernel size (done ++ (cur ++ [file.addr])) []
          else d'.Tracks w.kernel size done (cur ++ [file.addr]) := by
  have hopened : ∀ f ∈ file.addr :: d.openFiles, f ∈ done ++ (cur ++ [file.addr]) := by
    intro f hf
    rw [← List.append_assoc]
    rcases List.mem_cons.1 hf with rfl | hf
    · simp
    · exact List.mem_append_left _ (h.opened f hf)
  unfold fdupesRound filerecOpenOnce
  rw [if_neg fun hmem => hnew (h.opened _ hmem), hopen, h.ctxt]
  cases cur with
  | nil =>
    right
    subst hfile
    refine ⟨_, rfl, ?_⟩
    rw [if_neg fun hne => hne.1 rfl]
    exact ⟨rfl, hopened, h.issued⟩
  | cons src dests =>
    have hadd := addExtentToDedupe_batch size src file.addr hshort
    simp only [batchCtxt, hadd]
    generalize hd' : ({ d with
      ctxt := some (filledCtxt maxDedupesPerIoctl 0 size src
        ((dests ++ [file.addr]).map fun file => ⟨file, 0⟩))
      openFiles := file.addr :: d.openFiles } : FdupesLoop) = d'
    have htracks : d'.Tracks w.kernel size done (src :: dests ++ [file.addr]) := by
      subst hd'
      exact ⟨rfl, hopened, h.issued⟩
    rw [List.length_cons] at hshort ⊢
    have hfull : destsFor maxDedupesPerIoctl - (dests.length + 1) = 0 ↔
        dests.length + 1 + 1 = maxDedupesPerIoctl := by
      rw [destsFor, Nat.min_self]
      omega
    have hcons : src :: dests ≠ [] := List.cons_ne_nil _ _
    simp only [hfull]
    by_cases hflush : dests.length + 1 + 1 = maxDedupesPerIoctl ∨ last = true
    · simp only [if_pos hflush, if_pos (And.intro hcons hflush)]
      refine flushFdupes_tracks hzero hsize htracks (by simp) ?_ ?_
      · simp only [List.length_append, List.length_cons, List.length_nil]
        omega
      · subst hd'
        rfl
    · simp only [if_neg hflush, if_neg fun hand : src :: dests ≠ [] ∧ _ => hflush hand.2]
      exact .inr ⟨d', rfl, htracks⟩

/-- The files that open, by their addresses. -/
def FdupesWorld.opened (w : FdupesWorld) (k : Nat) (files : List FilerecNode) : List FileId :=
  (files.filter fun file => (w.opens k file.filename).isNone).map FilerecNode.addr

theorem FdupesWorld.opened_concat (files : List FilerecNode) (file : FilerecNode) :
    w.opened k (files ++ [file]) =
      w.opened k files ++ if w.opens k file.filename = none then [file.addr] else [] := by
  rw [FdupesWorld.opened, FdupesWorld.opened, List.filter_append, List.map_append]
  cases hopen : w.opens k file.filename <;> simp [hopen]

theorem FdupesWorld.opened_subset {files : List FilerecNode} {addr : FileId}
    (h : addr ∈ w.opened k files) : addr ∈ files.map FilerecNode.addr :=
  List.map_subset _ (List.filter_subset_self _) h

/-- Between two files: those that opened filled contexts, and a rest waits. -/
def FdupesLoop.Waits (d : FdupesLoop) (w : FdupesWorld) (k size : Nat)
    (files : List FilerecNode) : Prop :=
  ∃ done cur, d.Tracks w.kernel size done cur ∧ w.opened k files = done ++ cur ∧
    done.length % maxDedupesPerIoctl = 0 ∧ cur.length < maxDedupesPerIoctl

/-- Behind the last file: whether there is a rest without a request. -/
def FdupesLoop.Leaves (d : FdupesLoop) (w : FdupesWorld) (k : Nat)
    (files : List FilerecNode) : Prop :=
  ∃ done rest, (∀ file, (∃ start ∈ d.submitted, start.Issues w.kernel file) ↔ file ∈ done) ∧
    w.opened k files = done ++ rest ∧
    (rest = [] ↔ (w.opened k files).length % maxDedupesPerIoctl ≠ 1 ∧
      ((w.opened k files).length % maxDedupesPerIoctl = 0 ∨
        ∃ file, files.getLast? = some file ∧ w.opens k file.filename = none))

variable {files : List FilerecNode} {file : FilerecNode}

/-- A file that is not the last one. -/
theorem fdupesRound_waits (hzero : ∀ i, (w.kernel i).ret = 0) (hsize : size < 2 ^ 64)
    (h : d.Waits w k size files) (hfile : file.size = size)
    (hnew : file.addr ∉ files.map FilerecNode.addr) :
    (∃ d', fdupesRound w k false file d = .stop .stuck d') ∨
      ∃ d', fdupesRound w k false file d = .next d' ∧ d'.Waits w k size (files ++ [file]) := by
  obtain ⟨done, cur, htracks, hopened, hdone, hcur⟩ := h
  have hnew' : file.addr ∉ done ++ cur := fun hmem =>
    hnew (FdupesWorld.opened_subset (hopened ▸ hmem))
  cases hopen : w.opens k file.filename with
  | some errno =>
    refine .inr ⟨d, ?_, done, cur, htracks, ?_, hdone, hcur⟩
    · exact fdupesRound_unopened false (fun hmem => hnew' (htracks.opened _ hmem)) hopen
    · rw [FdupesWorld.opened_concat, hopened, hopen, if_neg (by simp), List.append_nil]
  | none =>
    have hconcat : w.opened k (files ++ [file]) = done ++ (cur ++ [file.addr]) := by
      rw [FdupesWorld.opened_concat, hopened, if_pos hopen, List.append_assoc]
    rcases fdupesRound_opened hzero hsize htracks hcur false hfile hnew' hopen with hstuck |
      ⟨d', hround, htracks'⟩
    · exact .inl hstuck
    · refine .inr ⟨d', hround, ?_⟩
      split at htracks'
      next hfull =>
        have hlen := hfull.2.resolve_right Bool.false_ne_true
        refine ⟨_, [], htracks', by rw [hconcat, List.append_nil], ?_, by decide⟩
        rw [List.length_append, List.length_append, List.length_singleton, hlen,
          Nat.add_mod_right, hdone]
      next hroom =>
        refine ⟨done, _, htracks', hconcat, hdone, ?_⟩
        rw [List.length_append, List.length_singleton]
        by_cases hnil : cur = []
        · rw [hnil]
          decide
        · have hno : cur.length + 1 ≠ maxDedupesPerIoctl := fun hlen => hroom ⟨hnil, .inl hlen⟩
          omega

/-- The last file. -/
theorem fdupesRound_leaves (hzero : ∀ i, (w.kernel i).ret = 0) (hsize : size < 2 ^ 64)
    (h : d.Waits w k size files) (hfile : file.size = size)
    (hnew : file.addr ∉ files.map FilerecNode.addr) :
    (∃ d', fdupesRound w k true file d = .stop .stuck d') ∨
      ∃ d', fdupesRound w k true file d = .next d' ∧ d'.Leaves w k (files ++ [file]) := by
  obtain ⟨done, cur, htracks, hopened, hdone, hcur⟩ := h
  have hnew' : file.addr ∉ done ++ cur := fun hmem =>
    hnew (FdupesWorld.opened_subset (hopened ▸ hmem))
  have hlast : ∀ P : FilerecNode → Prop,
      (∃ f, (files ++ [file]).getLast? = some f ∧ P f) ↔ P file := by
    intro P
    simp
  unfold FdupesLoop.Leaves
  simp only [hlast]
  unfold maxDedupesPerIoctl at hdone hcur ⊢
  cases hopen : w.opens k file.filename with
  | some errno =>
    have hconcat : w.opened k (files ++ [file]) = done ++ cur := by
      rw [FdupesWorld.opened_concat, hopened, hopen, if_neg (by simp), List.append_nil]
    refine .inr ⟨d, ?_, done, cur, htracks.issued, hconcat, ?_⟩
    · exact fdupesRound_unopened true (fun hmem => hnew' (htracks.opened _ hmem)) hopen
    · rw [hconcat, List.length_append, ← List.length_eq_zero_iff]
      simp only [reduceCtorEq, or_false]
      omega
  | none =>
    have hconcat : w.opened k (files ++ [file]) = done ++ (cur ++ [file.addr]) := by
      rw [FdupesWorld.opened_concat, hopened, if_pos hopen, List.append_assoc]
    rcases fdupesRound_opened hzero hsize htracks hcur true hfile hnew' hopen with hstuck |
      ⟨d', hround, htracks'⟩
    · exact .inl hstuck
    · refine .inr ⟨d', hround, ?_⟩
      split at htracks'
      next hflush =>
        have hpos := List.length_pos_iff.2 hflush.1
        refine ⟨_, [], htracks'.issued, by rw [hconcat, List.append_nil], ?_⟩
        rw [hconcat, List.length_append, List.length_append, List.length_singleton]
        simp only [true_iff, or_true, and_true]
        omega
      next hkept =>
        have hnil : cur = [] := by
          by_contra hne
          exact hkept ⟨hne, .inr rfl⟩
        refine ⟨done, _, htracks'.issued, hconcat, ?_⟩
        rw [hconcat, hnil, List.nil_append, List.length_append, List.length_singleton]
        simp only [List.cons_ne_nil, false_iff, or_true, and_true, not_not]
        omega

/-- The loop ends with the last file. -/
theorem fdupesLoop_leaves (hzero : ∀ i, (w.kernel i).ret = 0) (hsize : size < 2 ^ 64)
    (pre : List FilerecNode) (h : d.Waits w k size pre) (hne : files ≠ [])
    (hsizes : ∀ file ∈ files, file.size = size)
    (hnodup : ((pre ++ files).map FilerecNode.addr).Nodup) {exit : FdupesExit} {d' : FdupesLoop}
    (hloop : fdupesLoop w k files d = (exit, d')) (hends : exit ≠ .stuck) :
    exit = .returned ∧ d'.Leaves w k (pre ++ files) := by
  induction files generalizing pre d with
  | nil => exact absurd rfl hne
  | cons file files ih =>
    have hsplit : pre ++ file :: files = (pre ++ [file]) ++ files := by simp
    have hnew : file.addr ∉ pre.map FilerecNode.addr := by
      rw [hsplit, List.map_append, List.map_append] at hnodup
      have hsome := (List.nodup_append.1 (List.nodup_append.1 hnodup).1).2.2
      exact fun hmem => hsome _ hmem _ (List.mem_singleton_self _) rfl
    have hfile := hsizes file List.mem_cons_self
    rw [fdupesLoop] at hloop
    cases files with
    | nil =>
      rcases fdupesRound_leaves hzero hsize h hfile hnew with ⟨d₁, hround⟩ | ⟨d₁, hround, hleaves⟩
      · rw [List.isEmpty_nil, hround] at hloop
        cases hloop
        exact absurd rfl hends
      · rw [List.isEmpty_nil, hround] at hloop
        cases hloop
        exact ⟨rfl, hleaves⟩
    | cons next files =>
      rcases fdupesRound_waits hzero hsize h hfile hnew with ⟨d₁, hround⟩ | ⟨d₁, hround, hwaits⟩
      · rw [List.isEmpty_cons, hround] at hloop
        cases hloop
        exact absurd rfl hends
      · rw [List.isEmpty_cons, hround] at hloop
        rw [hsplit] at hnodup ⊢
        exact ih (pre ++ [file]) hwaits (List.cons_ne_nil _ _)
          (fun f hf => hsizes f (List.mem_cons_of_mem _ hf)) hnodup hloop

end Loop

-- ---------------------------------------------------------------------------
-- A group
-- ---------------------------------------------------------------------------

/-- In front of a line: the registry holds the files of the paths read so far, newest
    first. -/
structure FdupesState.Holds (s : FdupesState) (w : FdupesWorld) (size : Nat)
    (paths : List String) : Prop where
  inv : FilerecRun.Inv ⟨s.sys, s.sys.head⟩
  names : s.sys.head.map FilerecNode.filename = paths.reverse
  stat : ∀ file ∈ s.sys.head, file.size = size ∧
    ∃ ino < 2 ^ 64, w.statx s.calls.length file.filename = some (ino, size) ∧
      file.fileid = toInt64 ino
  addrs : ∀ file ∈ s.sys.head, file.addr < s.sys.nextAddr
  nodup : (s.sys.head.map FilerecNode.addr).Nodup

section Group

variable {w : FdupesWorld} {b : Balance FilerecNode} {s : FdupesState} {size : Nat}

theorem toInt64_inj {m n : Nat} (hm : m < 2 ^ 64) (hn : n < 2 ^ 64)
    (h : toInt64 m = toInt64 n) : m = n := by
  unfold toInt64 at h
  split at h <;> split at h <;> omega

/-- A file with a new inode number is registered. -/
theorem addFileFdupes_holds {paths : List String} (h : s.Holds w size paths) {path : String}
    {ino : Nat} (hino : ino < 2 ^ 64) (hstat : w.statx s.calls.length path = some (ino, size))
    (hnew : ∀ p ∈ paths, ∀ size', w.statx s.calls.length p ≠ some (ino, size')) :
    ∃ s', addFileFdupes w b path s = some s' ∧ s'.Holds w size (paths ++ [path]) ∧
      s'.calls = s.calls := by
  have hfresh : ∀ file ∈ s.sys.head, file.fileid ≠ toInt64 ino := by
    intro file hfile hid
    obtain ⟨-, ino', hino', hstat', hid'⟩ := h.stat file hfile
    have hmem : file.filename ∈ paths := by
      rw [← List.mem_reverse, ← h.names]
      exact List.mem_map_of_mem hfile
    rw [← toInt64_inj hino hino' (hid.symm.trans hid')] at hstat'
    exact hnew _ hmem _ hstat'
  obtain ⟨r, hcreate, hinv, hlive⟩ := h.inv.create (b := b) path size hfresh
  rw [FilerecRun.create, Option.map_eq_some_iff] at hcreate
  obtain ⟨⟨file, sys⟩, hsys, rfl⟩ := hcreate
  have hhead : sys.head = ⟨s.sys.nextAddr, path, toInt64 ino, size⟩ :: s.sys.head :=
    hinv.head.trans hlive
  have hnext : sys.nextAddr = s.sys.nextAddr + 1 := by
    rw [Filerecs.filerecNew, Option.map_eq_some_iff] at hsys
    obtain ⟨t, -, heq⟩ := hsys
    cases heq
    rfl
  refine ⟨{ s with sys := sys }, ?_, ⟨hinv.head ▸ hinv, ?_, ?_, ?_, ?_⟩, rfl⟩
  · simp only [addFileFdupes, hstat, hsys, Option.map_some]
  · show sys.head.map FilerecNode.filename = _
    rw [hhead, List.map_cons, h.names, List.reverse_concat]
  · intro file hfile
    rw [hhead] at hfile
    rcases List.mem_cons.1 hfile with rfl | hfile
    · exact ⟨rfl, ino, hino, hstat, rfl⟩
    · exact h.stat file hfile
  · intro file hfile
    rw [hhead] at hfile
    show file.addr < sys.nextAddr
    rw [hnext]
    rcases List.mem_cons.1 hfile with rfl | hfile
    · exact Nat.lt_succ_self _
    · exact Nat.lt_succ_of_lt (h.addrs file hfile)
  · show (sys.head.map FilerecNode.addr).Nodup
    rw [hhead, List.map_cons, List.nodup_cons]
    refine ⟨fun hmem => ?_, h.nodup⟩
    obtain ⟨file, hfile, haddr⟩ := List.mem_map.1 hmem
    exact absurd (h.addrs file hfile) (by rw [haddr]; exact Nat.lt_irrefl _)

/-- The paths of a group are read up to its end. -/
theorem processFdupes_read (paths more lines : List String) (h : s.Holds w size paths)
    (hsome : "" ∉ more) (hpaths : ∀ path ∈ more, path.utf8ByteSize ≤ pathMax - 1)
    (hstat : ∀ path ∈ more, ∃ ino < 2 ^ 64, w.statx s.calls.length path = some (ino, size))
    (hdistinct : ((paths ++ more).map fun path =>
      (w.statx s.calls.length path).map Prod.fst).Nodup) :
    ∃ s', processFdupes w b (more ++ lines) s = processFdupes w b lines s' ∧
      s'.Holds w size (paths ++ more) ∧ s'.calls = s.calls := by
  induction more generalizing paths s with
  | nil => exact ⟨s, rfl, by rwa [List.append_nil], rfl⟩
  | cons path more ih =>
    have hsplit : paths ++ path :: more = (paths ++ [path]) ++ more := by simp
    obtain ⟨ino, hino, hpath⟩ := hstat path List.mem_cons_self
    have hnew : ∀ p ∈ paths, ∀ size', w.statx s.calls.length p ≠ some (ino, size') := by
      intro p hp size' hsame
      rw [List.map_append] at hdistinct
      refine (List.nodup_append.1 hdistinct).2.2 _ (List.mem_map_of_mem hp) _
        (List.mem_map_of_mem List.mem_cons_self) ?_
      rw [hsame, hpath]
      rfl
    obtain ⟨s₁, hadd, hholds, hcalls⟩ := addFileFdupes_holds (b := b) h hino hpath hnew
    have hline : processFdupes w b (path :: more ++ lines) s =
        processFdupes w b (more ++ lines) s₁ := by
      have hne : path ≠ "" := fun hnil => hsome (hnil ▸ List.mem_cons_self)
      have hlen := hpaths path List.mem_cons_self
      rw [List.cons_append, processFdupes, if_neg hne, if_neg (by omega), hadd]
    rw [hline, hsplit]
    rw [← hcalls] at hstat hdistinct
    obtain ⟨s', hrun, hs', hcalls'⟩ := ih (paths ++ [path]) hholds
      (fun hmem => hsome (List.mem_cons_of_mem _ hmem))
      (fun p hp => hpaths p (List.mem_cons_of_mem _ hp))
      (fun p hp => hstat p (List.mem_cons_of_mem _ hp)) (by rwa [hsplit] at hdistinct)
    exact ⟨s', hrun, hs', hcalls'.trans hcalls⟩

/-- The files that open are those whose paths do. -/
theorem FdupesState.Holds.opening_eq {paths : List String} (h : s.Holds w size paths) (k : Nat) :
    (s.sys.head.filter fun file => (w.opens k file.filename).isNone).map FilerecNode.filename =
      (w.opening k paths).reverse := by
  rw [FdupesWorld.opening, ← List.filter_reverse, ← h.names, List.filter_map]
  rfl

theorem mem_opened_iff {k : Nat} {files : List FilerecNode} {addr : FileId} :
    addr ∈ w.opened k files ↔
      ∃ file ∈ files, w.opens k file.filename = none ∧ file.addr = addr := by
  simp only [FdupesWorld.opened, List.mem_map, List.mem_filter, Option.isNone_iff_eq_none,
    and_assoc]

/-- What the loop leaves behind, in terms of the paths. -/
theorem FdupesLoop.Leaves.requests {d : FdupesLoop} {k : Nat} {group : List String}
    (hleaves : d.Leaves w k s.sys.head) (h : s.Holds w size group) (hnames : group.Nodup) :
    (∀ path ∈ w.opening k group,
      FdupesCall.Requests w.kernel ⟨s.sys.head, d.submitted⟩ path) ↔ w.LeavesNoRest k group := by
  obtain ⟨done, rest, hissued, hopened, hrest⟩ := hleaves
  have hinj : ∀ file ∈ s.sys.head, ∀ file' ∈ s.sys.head,
      file.filename = file'.filename → file = file' :=
    fun file hfile file' hfile' => List.inj_on_of_nodup_map
      (h.names ▸ List.nodup_reverse.2 hnames) hfile hfile'
  have hmem : ∀ path, path ∈ w.opening k group ↔
      ∃ file ∈ s.sys.head, w.opens k file.filename = none ∧ file.filename = path := by
    intro path
    rw [← List.mem_reverse, ← h.opening_eq k]
    simp only [List.mem_map, List.mem_filter, Option.isNone_iff_eq_none, and_assoc]
  have hlast : (∃ file, s.sys.head.getLast? = some file ∧ w.opens k file.filename = none) ↔
      ∃ path, group.head? = some path ∧ w.opens k path = none := by
    have hgroup : group.head? = s.sys.head.getLast?.map FilerecNode.filename := by
      rw [← List.getLast?_map, h.names, List.getLast?_reverse]
    rw [hgroup]
    cases s.sys.head.getLast? <;> simp
  have hlen : (w.opened k s.sys.head).length = (w.opening k group).length := by
    have := congrArg List.length (h.opening_eq k)
    rwa [List.length_map, List.length_reverse, ← List.length_map FilerecNode.addr] at this
  rw [FdupesWorld.LeavesNoRest, ← hlen, ← hlast, ← hrest]
  constructor
  · intro hall
    by_contra hne
    obtain ⟨addr, haddr⟩ := List.exists_mem_of_ne_nil _ hne
    have hin : addr ∈ w.opened k s.sys.head := hopened ▸ List.mem_append_right _ haddr
    obtain ⟨file, hfile, hopen, rfl⟩ := mem_opened_iff.1 hin
    obtain ⟨file', hfile', hname, hstart⟩ := hall _ ((hmem _).2 ⟨file, hfile, hopen, rfl⟩)
    rw [hinj file' hfile' file hfile hname, hissued] at hstart
    have hnodup : (w.opened k s.sys.head).Nodup :=
      h.nodup.sublist (List.filter_sublist.map FilerecNode.addr)
    rw [hopened] at hnodup
    exact (List.nodup_append.1 hnodup).2.2 _ hstart _ haddr rfl
  · rintro rfl path hpath
    obtain ⟨file, hfile, hopen, hname⟩ := (hmem path).1 hpath
    refine ⟨file, hfile, hname, (hissued _).2 ?_⟩
    rw [List.append_nil] at hopened
    rw [← hopened]
    exact mem_opened_iff.2 ⟨file, hfile, hopen, rfl⟩

/-- The group is deduped as a whole if and only if it leaves no rest. -/
theorem fdupesDedupe_whole {group : List String} (hzero : ∀ i, (w.kernel i).ret = 0)
    (hsize : size < 2 ^ 64) (h : s.Holds w size group) (hnames : group.Nodup)
    {exit : FdupesExit} {s' : FdupesState} (hrun : fdupesDedupe w b s = (exit, s'))
    (hends : exit ≠ .stuck) :
    exit = .returned ∧ FilerecRun.Inv ⟨s'.sys, []⟩ ∧ ∃ call, s'.calls = s.calls ++ [call] ∧
      ((∀ path ∈ w.opening s.calls.length group, call.Requests w.kernel path) ↔
        w.LeavesNoRest s.calls.length group) := by
  rw [fdupesDedupe] at hrun
  cases hloop : fdupesLoop w s.calls.length s.sys.head
    ⟨none, [], s.fsBlocksize, s.ioctls, 0, []⟩ with
  | mk exit' d =>
    rw [hloop] at hrun
    cases hrun
    have hleaves : exit = .returned ∧ d.Leaves w s.calls.length s.sys.head := by
      cases hhead : s.sys.head with
      | nil =>
        rw [hhead] at hloop
        cases hloop
        refine ⟨rfl, [], [], by simp, rfl, ?_⟩
        simp [FdupesWorld.opened]
      | cons file files =>
        rw [hhead] at hloop
        have hnodup := h.nodup
        have hstat := h.stat
        rw [hhead] at hnodup hstat
        have hwaits : FdupesLoop.Waits ⟨none, [], s.fsBlocksize, s.ioctls, 0, []⟩ w
            s.calls.length size [] :=
          ⟨[], [], ⟨rfl, fun f hf => absurd hf List.not_mem_nil, by simp⟩, rfl, rfl, by decide⟩
        exact fdupesLoop_leaves hzero hsize [] hwaits (List.cons_ne_nil _ _)
          (fun f hf => (hstat f hf).1) hnodup hloop hends
    exact ⟨hleaves.1, h.inv.freeAll, _, rfl, hleaves.2.requests h hnames⟩

end Group

-- ---------------------------------------------------------------------------
-- The stream
-- ---------------------------------------------------------------------------

theorem groupsOf_lines (lines : List String) :
    lines = (groupsOf lines).1.flatMap (· ++ [""]) ++ (groupsOf lines).2 ∧
      ∀ group ∈ (groupsOf lines).1 ++ [(groupsOf lines).2], "" ∉ group := by
  induction lines with
  | nil => simp [groupsOf]
  | cons line lines ih =>
    obtain ⟨hlines, hsome⟩ := ih
    rw [groupsOf]
    split
    next hline =>
      subst hline
      refine ⟨?_, ?_⟩
      · simp only [List.flatMap_cons, List.nil_append, List.cons_append]
        rw [← hlines]
      · intro group hgroup
        rcases List.mem_cons.1 hgroup with rfl | hgroup
        · exact List.not_mem_nil
        · exact hsome group hgroup
    next hline =>
      have hcons : ∀ group, "" ∉ group → "" ∉ line :: group := by
        intro group hgroup hmem
        rcases List.mem_cons.1 hmem with hnil | hmem
        · exact hline hnil.symm
        · exact hgroup hmem
      cases hgroups : groupsOf lines with
      | mk groups rest =>
        rw [hgroups] at hlines hsome
        cases groups with
        | nil =>
          refine ⟨congrArg (line :: ·) hlines, fun group hgroup => ?_⟩
          rw [List.mem_singleton.1 hgroup]
          exact hcons rest (hsome rest (by simp))
        | cons group groups =>
          refine ⟨congrArg (line :: ·) hlines, fun g hg => ?_⟩
          rcases List.mem_cons.1 hg with rfl | hg
          · exact hcons group (hsome group (by simp))
          · exact hsome g (List.mem_cons_of_mem _ hg)

section Stream

variable {w : FdupesWorld} {b : Balance FilerecNode} {s s' : FdupesState} {exit : FdupesExit}

/-- The paths of a group are read into an empty registry. -/
theorem processFdupes_readGroup {group : List String} (hinv : FilerecRun.Inv ⟨s.sys, []⟩)
    (hgood : w.SameSize s.calls.length group) (hsome : "" ∉ group) (lines : List String) :
    ∃ size < 2 ^ 64, ∃ s', processFdupes w b (group ++ lines) s = processFdupes w b lines s' ∧
      s'.Holds w size group ∧ s'.calls = s.calls := by
  obtain ⟨size, hsize, hstat⟩ := hgood.stat
  have hhead : s.sys.head = [] := hinv.head
  have hholds : s.Holds w size [] := by
    refine ⟨by rw [hhead]; exact hinv, ?_, ?_, ?_, ?_⟩ <;> simp [hhead]
  exact ⟨size, hsize, processFdupes_read [] group lines hholds hsome hgood.paths hstat
    hgood.distinct⟩

theorem FdupesWorld.SameSize.nodup {k : Nat} {group : List String} (h : w.SameSize k group) :
    group.Nodup := h.distinct.of_map

/-- Each group with an empty line behind it is deduped, as a whole if and only if it leaves no
    rest. -/
theorem processFdupes_groups (hzero : ∀ i, (w.kernel i).ret = 0) (groups : List (List String))
    (rest : List String) (hinv : FilerecRun.Inv ⟨s.sys, []⟩)
    (hgood : ∀ i group, (groups ++ [rest])[i]? = some group →
      w.SameSize (s.calls.length + i) group)
    (hsome : ∀ group ∈ groups ++ [rest], "" ∉ group)
    (hrun : processFdupes w b (groups.flatMap (· ++ [""]) ++ rest) s = (exit, s'))
    (hends : exit ≠ .stuck) :
    exit = .returned ∧ s'.calls.length = s.calls.length + groups.length ∧
      s.calls <+: s'.calls ∧ ∀ i group, groups[i]? = some group →
        ∃ call, s'.calls[s.calls.length + i]? = some call ∧
          ((∀ path ∈ w.opening (s.calls.length + i) group, call.Requests w.kernel path) ↔
            w.LeavesNoRest (s.calls.length + i) group) := by
  induction groups generalizing s with
  | nil =>
    obtain ⟨size, -, s₁, hread, -, hcalls⟩ := processFdupes_readGroup (b := b) hinv
      (hgood 0 rest rfl) (hsome rest (by simp)) []
    rw [List.flatMap_nil, List.nil_append, ← List.append_nil rest, hread] at hrun
    cases hrun
    exact ⟨rfl, by rw [hcalls]; rfl, hcalls ▸ List.prefix_refl _, by simp⟩
  | cons group groups ih =>
    obtain ⟨size, hsize, s₁, hread, hholds, hcalls⟩ := processFdupes_readGroup (b := b) hinv
      (hgood 0 group rfl) (hsome group (by simp)) ("" :: (groups.flatMap (· ++ [""]) ++ rest))
    have hlines : (group :: groups).flatMap (· ++ [""]) ++ rest =
        group ++ "" :: (groups.flatMap (· ++ [""]) ++ rest) := by simp
    rw [hlines, hread, processFdupes, if_pos rfl] at hrun
    cases hdedupe : fdupesDedupe w b s₁ with
    | mk exit₁ s₂ =>
      rw [hdedupe] at hrun
      have hends₁ : exit₁ ≠ .stuck := by
        rintro rfl
        cases hrun
        exact hends rfl
      obtain ⟨rfl, hinv₂, call, hcalls₂, hwhole⟩ :=
        fdupesDedupe_whole hzero hsize hholds (hgood 0 group rfl).nodup hdedupe hends₁
      rw [hcalls] at hcalls₂ hwhole
      have hlen : s₂.calls.length = s.calls.length + 1 := by
        rw [hcalls₂, List.length_append, List.length_singleton]
      have hgood₂ : ∀ i g, (groups ++ [rest])[i]? = some g →
          w.SameSize (s₂.calls.length + i) g := by
        intro i g hg
        rw [hlen, Nat.add_assoc, Nat.add_comm 1 i]
        exact hgood (i + 1) g hg
      obtain ⟨hexit, hlen', hkept, hgroups⟩ := @ih { s₂ with sys := s₂.sys.freeAllFilerecs b }
        hinv₂.freeAll hgood₂ (fun g hg => hsome g (List.mem_cons_of_mem _ hg)) hrun
      refine ⟨hexit, ?_, (List.prefix_append _ _).trans (hcalls₂ ▸ hkept), ?_⟩
      · rw [hlen', List.length_cons]
        show s₂.calls.length + _ = _
        omega
      · rintro (_ | i) g hg
        · cases hg
          refine ⟨call, ?_, hwhole⟩
          obtain ⟨more, hmore⟩ := hkept
          rw [← hmore]
          show (s₂.calls ++ more)[s.calls.length + 0]? = some call
          rw [hcalls₂, List.append_assoc, Nat.add_zero, List.getElem?_append_right (Nat.le_refl _),
            Nat.sub_self]
          rfl
        · rw [show s.calls.length + (i + 1) = s₂.calls.length + i by omega]
          exact hgroups i g hg

/-- When the ioctls succeed and the calls of `dedupe_extents` end, `process_fdupes` returns 0,
    and it dedupes whole groups if and only if each group with two files that open has an
    empty line behind it and leaves no rest. -/
theorem processFdupes_wholeGroups_iff (w : FdupesWorld) (b : Balance FilerecNode)
    (lines : List String)
    (hgood : ∀ (k : Nat) (group : List String),
      ((groupsOf lines).1 ++ [(groupsOf lines).2])[k]? = some group → w.SameSize k group)
    (hzero : ∀ i, (w.kernel i).ret = 0)
    (hends : (processFdupes w b lines .init).1 ≠ .stuck) :
    (processFdupes w b lines .init).1 = .returned ∧
      (DedupesWholeGroups w lines (processFdupes w b lines .init).2 ↔
        FlushesAllGroups w lines) := by
  obtain ⟨hlines, hsome⟩ := groupsOf_lines lines
  have hrun := congrArg (fun l => processFdupes w b l .init) hlines
  have hgood' : ∀ (i : Nat) (group : List String),
      ((groupsOf lines).1 ++ [(groupsOf lines).2])[i]? = some group →
        w.SameSize (FdupesState.init.calls.length + i) group := by
    intro i group hgroup
    rw [show FdupesState.init.calls.length + i = i from Nat.zero_add i]
    exact hgood i group hgroup
  obtain ⟨hexit, hlen, -, hgroups⟩ :=
    processFdupes_groups hzero _ _ FilerecRun.inv_init hgood' hsome hrun.symm hends
  refine ⟨hexit, forall_congr' fun k => forall_congr' fun group => imp_congr_right fun hgroup =>
    imp_congr_right fun hopen => ?_⟩
  rw [show FdupesState.init.calls.length + (groupsOf lines).1.length =
    (groupsOf lines).1.length from Nat.zero_add _] at hlen
  constructor
  · rintro ⟨call, hcall, hall⟩
    have hk : k < (groupsOf lines).1.length := hlen ▸ (List.getElem?_eq_some_iff.1 hcall).1
    rw [List.getElem?_append_left hk] at hgroup
    obtain ⟨call', hcall', hwhole⟩ := hgroups k group hgroup
    rw [show FdupesState.init.calls.length + k = k from Nat.zero_add k] at hcall' hwhole
    cases hcall.symm.trans hcall'
    exact ⟨hk, hwhole.1 hall⟩
  · rintro ⟨hk, hrest⟩
    rw [List.getElem?_append_left hk] at hgroup
    obtain ⟨call, hcall, hwhole⟩ := hgroups k group hgroup
    rw [show FdupesState.init.calls.length + k = k from Nat.zero_add k] at hcall hwhole
    exact ⟨call, hcall, hwhole.2 hrest⟩

end Stream

/-- Three files of a page each, where `gone` does not open. The kernel dedupes a page per
    destination. -/
def pagesWorld : FdupesWorld where
  statx := fun _ path =>
    if path = "a" then some (1, 4096) else if path = "b" then some (2, 4096) else some (3, 4096)
  opens := fun _ path => if path = "gone" then some 2 else none
  kernel := pageKernel
  fuel := 32

theorem pagesWorld_sameSize (k : Nat) {group : List String}
    (hmem : ∀ path ∈ group, path = "a" ∨ path = "b" ∨ path = "gone") (hnodup : group.Nodup) :
    pagesWorld.SameSize k group where
  paths := by
    intro path hpath
    rcases hmem path hpath with rfl | rfl | rfl <;> decide +kernel
  stat := by
    refine ⟨4096, by decide, fun path hpath => ?_⟩
    rcases hmem path hpath with rfl | rfl | rfl
    · exact ⟨1, by decide, rfl⟩
    · exact ⟨2, by decide, rfl⟩
    · exact ⟨3, by decide, rfl⟩
  distinct := by
    refine (List.nodup_map_iff_inj_on hnodup).2 fun path hpath path' hpath' hsame => ?_
    change (pagesWorld.statx 0 path).map Prod.fst = (pagesWorld.statx 0 path').map Prod.fst at hsame
    rcases hmem path hpath with rfl | rfl | rfl <;>
      rcases hmem path' hpath' with rfl | rfl | rfl <;> revert hsame <;> decide

/-- A group of two files that both open. -/
theorem processFdupes_wholeGroups_iff_twoFiles :
    (processFdupes pagesWorld (.none FilerecNode) ["a", "b", ""] .init).1 = .returned ∧
      (DedupesWholeGroups pagesWorld ["a", "b", ""]
          (processFdupes pagesWorld (.none FilerecNode) ["a", "b", ""] .init).2 ↔
        FlushesAllGroups pagesWorld ["a", "b", ""]) := by
  refine processFdupes_wholeGroups_iff pagesWorld (.none FilerecNode) ["a", "b", ""] ?_
    (fun _ => rfl) (by decide +kernel)
  rintro (_ | _ | k) group hgroup
  · cases hgroup
    show pagesWorld.SameSize 0 ["a", "b"]
    exact pagesWorld_sameSize 0 (by simp) (by decide)
  · cases hgroup
    show pagesWorld.SameSize 1 []
    exact pagesWorld_sameSize 1 (by simp) (by decide)
  · cases hgroup

/-- The first path of the group, which is the last file of the walk, does not open: the
    other two are collected and never deduped. -/
theorem not_dedupesWholeGroups_gone :
    (∀ (k : Nat) (group : List String),
      ((groupsOf ["gone", "a", "b", ""]).1 ++ [(groupsOf ["gone", "a", "b", ""]).2])[k]? =
        some group → pagesWorld.SameSize k group) ∧
      (∀ i, (pagesWorld.kernel i).ret = 0) ∧
      (processFdupes pagesWorld (.none FilerecNode) ["gone", "a", "b", ""] .init).1 =
        .returned ∧
      ¬ DedupesWholeGroups pagesWorld ["gone", "a", "b", ""]
        (processFdupes pagesWorld (.none FilerecNode) ["gone", "a", "b", ""] .init).2 := by
  refine ⟨?_, fun _ => rfl, by decide +kernel, fun hwhole => ?_⟩
  · rintro (_ | _ | k) group hgroup
    · cases hgroup
      show pagesWorld.SameSize 0 ["gone", "a", "b"]
      exact pagesWorld_sameSize 0 (by simp) (by decide)
    · cases hgroup
      show pagesWorld.SameSize 1 []
      exact pagesWorld_sameSize 1 (by simp) (by decide)
    · cases hgroup
  · obtain ⟨call, hcall, hall⟩ := hwhole 0 ["gone", "a", "b"] rfl (by decide +kernel)
    have hnone : (processFdupes pagesWorld (.none FilerecNode) ["gone", "a", "b", ""]
        .init).2.calls[0]?.map FdupesCall.submitted = some [] := by decide +kernel
    rw [hcall] at hnone
    obtain ⟨file, -, -, start, hstart, -⟩ := hall "a" (by decide +kernel)
    rw [Option.some.inj hnone] at hstart
    cases hstart

end Duperemove
