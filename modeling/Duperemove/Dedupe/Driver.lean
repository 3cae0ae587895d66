-- SUMMARY: The batch driver `dedupe_extent_list`: opening files, filling contexts, flushing them, and its checks at the end.
import Duperemove.Dedupe.Context

/-!
# The batch driver

`dedupe_extent_list` walks over the extents of a group. The first extent whose
file opens becomes the target, and the later ones are queued in contexts that are
flushed when they are full and at the last extent. The definitions follow
`run_dedupe.c` behind `clean_deduped`. The counting of shared bytes is left out.
-/

namespace Duperemove

def enoent : Nat := 2

/-- What the driver asks of its surroundings. `opens` is the errno of opening a
    file, `none` for success. `reopens k` is the errno of opening a file as the
    target again, after the `k`-th flush. `fuel` bounds the transitions of one
    call of `dedupe_extents`. -/
structure DedupeWorld where
  opens : FileId → Option Nat
  reopens : Nat → FileId → Option Nat
  kernel : Nat → KernelAnswer
  fuel : Nat

/-- The checks that kill the process. -/
inductive DriverAbort where
  /-- `add_extent_to_dedupe` on a full context. -/
  | addExtent
  /-- `add_dedupe_request` beyond the room of the ioctl structure. -/
  | addRequest
  /-- `pop_one_dedupe_result` without a result. -/
  | popResult
  /-- The target is reopened although there is none. -/
  | noTarget
  /-- The context is still there behind the loop. -/
  | ctxtLeft
  /-- Files are still open behind the loop. -/
  | openFilesLeft
  deriving DecidableEq, Repr

/-- How the driver ends. `stuck` is a call of `dedupe_extents` that did not end
    within its bound. -/
inductive DriverExit where
  | returned
  | aborted (check : DriverAbort)
  | stuck
  deriving DecidableEq, Repr

/-- The variables of `dedupe_extent_list`, with the contexts that it handed to
    `dedupe_extents`, the same contexts as they came back, and the files that it
    dropped from the hashfile. -/
structure Driver where
  ctxt : Option DedupeCtxt
  tgtExtent : Option Extent
  openFiles : List FileId
  fsBlocksize : Nat
  ioctls : Nat
  kernBytes : Nat
  flushes : Nat
  submitted : List DedupeCtxt
  finished : List DedupeCtxt
  removed : List FileId
  deriving DecidableEq, Repr

def Driver.start (fsBlocksize kernBytes : Nat) : Driver :=
  ⟨none, none, [], fsBlocksize, 0, kernBytes, 0, [], [], []⟩

/-- How one round of the loop ends: the next extent, the code behind the loop, or
    the end of the function. -/
inductive DriverRound where
  | next (d : Driver)
  | leave (d : Driver)
  | stop (exit : DriverExit) (d : Driver)
  deriving DecidableEq, Repr

/-- `filerec_open_once`: the errno, and the list of open files. -/
def filerecOpenOnce (opens : FileId → Option Nat) (file : FileId) (openFiles : List FileId) :
    Option Nat × List FileId :=
  if file ∈ openFiles then (none, openFiles)
  else
    match opens file with
    | some errno => (some errno, openFiles)
    | none => (none, file :: openFiles)

/-- From the label `close_files` to the end of the round. -/
def closeFiles (w : DedupeWorld) (last : Bool) (d : Driver) : DriverRound :=
  let d : Driver := { d with openFiles := [], ctxt := none }
  if last then .next d
  else
    match d.tgtExtent with
    | none => .stop (.aborted .noTarget) d
    | some tgt =>
      let (errno, openFiles) := filerecOpenOnce (w.reopens d.flushes) tgt.eFile d.openFiles
      let d : Driver := { d with openFiles := openFiles, flushes := d.flushes + 1 }
      match errno with
      | some _ => .leave d
      | none => .next d

/-- From the label `run_dedupe` to the end of the round. -/
def runDedupe (w : DedupeWorld) (last : Bool) (d : Driver) (ctxt : DedupeCtxt) : DriverRound :=
  if ctxt.numQueued = 0 then closeFiles w last d
  else
    let d : Driver := { d with submitted := d.submitted ++ [ctxt] }
    match dedupeExtents w.kernel w.fuel ctxt d.fsBlocksize d.ioctls with
    | none => .stop .stuck d
    | some s =>
      let d : Driver :=
        { d with
          fsBlocksize := s.fsBlocksize
          ioctls := s.ioctls
          finished := d.finished ++ [s.ctxt] }
      if s.pc = .returned 0 then
        match processDedupeResults s.ctxt d.kernBytes with
        | some (some walk) => closeFiles w last { d with kernBytes := walk.kernBytes }
        | _ => .stop (.aborted .popResult) d
      else if s.pc = .aborted then .stop (.aborted .addRequest) d
      else closeFiles w last d

/-- Queue an extent, and flush the context when it is full or the extent is the
    last one. -/
def queueExtent (w : DedupeWorld) (last : Bool) (d : Driver) (ctxt : DedupeCtxt) (e : Extent) :
    DriverRound :=
  match addExtentToDedupe ctxt e.eLoff e.eFile with
  | none => .stop (.aborted .addExtent) d
  | some (rc, ctxt) =>
    let d : Driver := { d with ctxt := some ctxt }
    if rc ≠ 0 ∧ last = false then .next d else runDedupe w last d ctxt

/-- One round of the loop over a group of `n` extents of length `len`. A target
    that was picked in an earlier round is another extent than `e`. -/
def dedupeRound (w : DedupeWorld) (n len : Nat) (last : Bool) (e : Extent) (d : Driver) :
    DriverRound :=
  match filerecOpenOnce w.opens e.eFile d.openFiles with
  | (some errno, _) =>
    let d : Driver := if errno = enoent then { d with removed := d.removed ++ [e.eFile] } else d
    match d.ctxt with
    | some ctxt => if last then runDedupe w last d ctxt else .next d
    | none => .next d
  | (none, openFiles) =>
    let d : Driver := { d with openFiles := openFiles }
    match d.ctxt, d.tgtExtent with
    | some ctxt, _ => queueExtent w last d ctxt e
    | none, some tgt => queueExtent w last d (newDedupeCtxt n tgt.eLoff len tgt.eFile) e
    | none, none =>
      if last then closeFiles w last d
      else
        .next { d with tgtExtent := some e, ctxt := some (newDedupeCtxt n e.eLoff len e.eFile) }

/-- The state after a file did not open: at most a file was dropped from the
    hashfile. -/
def Driver.unopened (d : Driver) (errno : Nat) (e : Extent) : Driver :=
  if errno = enoent then { d with removed := d.removed ++ [e.eFile] } else d

/-- A round whose file does not open only flushes, at the last extent. -/
theorem dedupeRound_unopened {w : DedupeWorld} {e : Extent} {d : Driver} {errno : Nat}
    {files : List FileId}
    (hcall : filerecOpenOnce w.opens e.eFile d.openFiles = (some errno, files)) (n len : Nat)
    (last : Bool) :
    dedupeRound w n len last e d =
      match (d.unopened errno e).ctxt with
      | some ctxt =>
        if last then runDedupe w last (d.unopened errno e) ctxt else .next (d.unopened errno e)
      | none => .next (d.unopened errno e) := by
  unfold dedupeRound
  rw [hcall]
  rfl

/-- The checks behind the loop. -/
def driverEnd (d : Driver) : DriverExit × Driver :=
  if d.ctxt.isSome then (.aborted .ctxtLeft, d)
  else if d.openFiles ≠ [] then (.aborted .openFilesLeft, d)
  else (.returned, d)

/-- The loop from some extent of the group on. -/
def driverLoop (w : DedupeWorld) (n len : Nat) : List Extent → Driver → DriverExit × Driver
  | [], d => driverEnd d
  | e :: rest, d =>
    match dedupeRound w n len rest.isEmpty e d with
    | .next d => driverLoop w n len rest d
    | .leave d => driverEnd d
    | .stop exit d => (exit, d)

/-- `dedupe_extent_list` on the group that `clean_deduped` left. -/
def dedupeExtentList (w : DedupeWorld) (len : Nat) (extents : List Extent)
    (fsBlocksize kernBytes : Nat) : DriverExit × Driver :=
  driverLoop w extents.length len extents (.start fsBlocksize kernBytes)

end Duperemove
