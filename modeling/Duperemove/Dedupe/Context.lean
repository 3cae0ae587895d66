-- SUMMARY: Dedupe contexts: requests, the ioctl structure, and `dedupe_extents` as a machine driven by kernel answers.
import Mathlib.Logic.Function.Iterate
import Duperemove.Lib.Loop
import Duperemove.Lib.SafeList
import Duperemove.Lib.Word

/-!
# Dedupe contexts

The definitions follow `dedupe.c`. A context holds its requests in three lists:
queued, in progress and completed. `dedupe_extents` moves them around while it
talks to the kernel, so it is a machine with one transition per list operation
and per ioctl. The kernel is a sequence of answers, one for each ioctl.
-/

namespace Duperemove

/-- `struct filerec`, by identity. -/
abbrev FileId := Nat

/-- `struct extent`, as far as the dedupe needs it: a range is its file, its
    offset, and the length of its group. -/
structure Extent where
  eFile : FileId
  eLoff : Nat
  deriving DecidableEq, Repr

def maxDedupesPerIoctl : Nat := 120

def einval : Int := 22

-- ---------------------------------------------------------------------------
-- State
-- ---------------------------------------------------------------------------

/-- `struct dedupe_req`. The `id` is its address, as the number of requests that
    were allocated before it. -/
structure DedupeReq where
  id : Nat
  reqFile : FileId
  reqLoff : Nat
  reqTotal : Nat
  reqStatus : Int
  reqIdx : Nat
  deriving DecidableEq, Repr

/-- `struct file_dedupe_range_info`; a descriptor is the file it belongs to. -/
structure DedupeRangeInfo where
  destFd : FileId
  destOffset : Nat
  bytesDeduped : Nat
  status : Int
  deriving DecidableEq, Repr

/-- `struct file_dedupe_range`. -/
structure DedupeRange where
  srcOffset : Nat
  srcLength : Nat
  destCount : Nat
  info : List DedupeRangeInfo
  deriving DecidableEq, Repr

/-- The structure after `memset`, with room for `n` destinations. -/
def DedupeRange.zeroed (n : Nat) : DedupeRange := ⟨0, 0, 0, List.replicate n ⟨0, 0, 0, 0⟩⟩

structure DedupeCtxt where
  origLen : Nat
  origFileOff : Nat
  len : Nat
  ioctlFile : FileId
  ioctlFileOff : Nat
  maxQueable : Nat
  numQueued : Nat
  queued : List DedupeReq
  inProgress : List DedupeReq
  completed : List DedupeReq
  same : DedupeRange
  deriving DecidableEq, Repr

/-- All requests of a context. -/
def DedupeCtxt.requests (ctxt : DedupeCtxt) : List DedupeReq :=
  ctxt.queued ++ ctxt.inProgress ++ ctxt.completed

-- ---------------------------------------------------------------------------
-- Building a context
-- ---------------------------------------------------------------------------

def newDedupeReq (id : Nat) (file : FileId) (loff : Nat) : DedupeReq := ⟨id, file, loff, 0, 0, 0⟩

def newDedupeCtxt (maxExtents loff elen : Nat) (ioctlFile : FileId) : DedupeCtxt :=
  let maxExtents := if maxExtents > maxDedupesPerIoctl then maxDedupesPerIoctl else maxExtents
  let maxDestFiles := Word.sub 32 maxExtents 1
  { origLen := elen
    origFileOff := loff
    len := elen
    ioctlFile := ioctlFile
    ioctlFileOff := loff
    maxQueable := maxDestFiles
    numQueued := 0
    queued := []
    inProgress := []
    completed := []
    same := .zeroed maxDestFiles }

/-- `add_extent_to_dedupe`: the room that is left, and the new context. `none` is
    the abort. -/
def addExtentToDedupe (ctxt : DedupeCtxt) (loff : Nat) (file : FileId) :
    Option (Nat × DedupeCtxt) :=
  if ctxt.numQueued ≥ ctxt.maxQueable then none
  else
    let numQueued := Word.wrap 32 (ctxt.numQueued + 1)
    some (ctxt.maxQueable - numQueued,
      { ctxt with
        queued := ctxt.queued ++ [newDedupeReq ctxt.requests.length file loff]
        numQueued := numQueued })

-- ---------------------------------------------------------------------------
-- From the queue to the ioctl
-- ---------------------------------------------------------------------------

/-- `add_dedupe_request`: the structure and the request with its index. `none` is
    the abort. -/
def addDedupeRequest (ctxt : DedupeCtxt) (same : DedupeRange) (req : DedupeReq) :
    Option (DedupeRange × DedupeReq) :=
  let sameIdx := same.destCount
  if same.destCount ≥ ctxt.maxQueable then none
  else
    some
      ({ same with
          info := same.info.modify sameIdx fun info =>
            { info with destFd := req.reqFile, destOffset := req.reqLoff, bytesDeduped := 0 }
          destCount := Word.wrap 16 (same.destCount + 1) },
        { req with reqIdx := sameIdx })

/-- `set_aligned_same_length`. The mask is computed in 32 bits and widened with
    zeros. -/
def setAlignedSameLength (fsBlocksize : Nat) (ctxt : DedupeCtxt) (same : DedupeRange) :
    DedupeRange :=
  { same with
    srcLength :=
      if fsBlocksize ≠ 0 ∧ ctxt.len > fsBlocksize then
        ctxt.len &&& (2 ^ 32 - 1 - Word.sub 32 fsBlocksize 1)
      else ctxt.len }

/-- The part of `populate_dedupe_request` in front of its loop. -/
def populateStart (fsBlocksize : Nat) (ctxt : DedupeCtxt) : DedupeCtxt :=
  let same := setAlignedSameLength fsBlocksize ctxt (.zeroed ctxt.same.info.length)
  { ctxt with same := { same with srcOffset := ctxt.ioctlFileOff } }

/-- One round of the loop of `populate_dedupe_request`. -/
def populateOne (ctxt : DedupeCtxt) (req : DedupeReq) : Option DedupeCtxt :=
  match addDedupeRequest ctxt ctxt.same req with
  | none => none
  | some (same, req') =>
    some { ctxt with
      same := same
      queued := SafeList.unlink DedupeReq.id ctxt.queued req.id
      inProgress := ctxt.inProgress ++ [req']
      numQueued := Word.sub 32 ctxt.numQueued 1 }

-- ---------------------------------------------------------------------------
-- The kernel
-- ---------------------------------------------------------------------------

/-- What the kernel answers for one destination. -/
structure DedupeReply where
  bytesDeduped : Nat
  status : Int
  deriving DecidableEq, Repr

/-- One ioctl: its return value, the replies per destination, and the block size
    that `fstatfs` would report then. -/
structure KernelAnswer where
  ret : Int
  replies : Nat → DedupeReply
  fBsize : Nat

/-- The structure after the kernel wrote its replies to it. -/
def DedupeRange.answered (same : DedupeRange) (answer : KernelAnswer) : DedupeRange :=
  { same with
    info := same.info.mapIdx fun i info =>
      if i < same.destCount then
        { info with
          bytesDeduped := Word.wrap 64 (answer.replies i).bytesDeduped
          status := (answer.replies i).status }
      else info }

def DedupeRange.infoAt (same : DedupeRange) (i : Nat) : DedupeRangeInfo :=
  same.info.getD i ⟨0, 0, 0, 0⟩

-- ---------------------------------------------------------------------------
-- From the ioctl back to the lists
-- ---------------------------------------------------------------------------

/-- A request with the bytes of its reply added. -/
def DedupeReq.advance (req : DedupeReq) (bytes : Nat) : DedupeReq :=
  { req with
    reqLoff := Word.wrap 64 (req.reqLoff + bytes)
    reqTotal := Word.wrap 64 (req.reqTotal + bytes) }

/-- One round of the loop of `process_dedupes`: take the reply of a request, and
    move it to the completed or back to the queued list. -/
def processOne (ctxt : DedupeCtxt) (req : DedupeReq) : DedupeCtxt :=
  let info := ctxt.same.infoAt req.reqIdx
  let req' := req.advance info.bytesDeduped
  let inProgress := SafeList.unlink DedupeReq.id ctxt.inProgress req.id
  if info.status ≠ 0 ∨ req'.reqTotal ≥ ctxt.origLen then
    { ctxt with
      inProgress := inProgress
      completed := ctxt.completed ++ [{ req' with reqStatus := info.status }] }
  else
    { ctxt with
      inProgress := inProgress
      queued := ctxt.queued ++ [req']
      numQueued := Word.wrap 32 (ctxt.numQueued + 1) }

/-- The part of `process_dedupes` behind its loop. `list_splice_init` puts the
    queued requests in front of the completed ones. -/
def processEnd (fsBlocksize : Nat) (ctxt : DedupeCtxt) (maxDeduped : Nat) : DedupeCtxt :=
  let ctxt := { ctxt with
    len := Word.sub 64 ctxt.len maxDeduped
    ioctlFileOff := Word.wrap 64 (ctxt.ioctlFileOff + maxDeduped) }
  if fsBlocksize ≠ 0 ∧ ctxt.len < fsBlocksize then
    { ctxt with queued := [], completed := ctxt.queued ++ ctxt.completed }
  else ctxt

-- ---------------------------------------------------------------------------
-- `dedupe_extents`
-- ---------------------------------------------------------------------------

/-- Where `dedupe_extents` stands. -/
inductive DedupePc where
  | loopHead
  | populating (cursor : SafeList.Cursor Nat)
  | ioctl
  | processing (cursor : SafeList.Cursor Nat) (maxDeduped : Nat)
  | returned (ret : Int)
  | aborted
  deriving DecidableEq, Repr

/-- The state of `dedupe_extents`: the context, the global `fs_blocksize`, and the
    number of ioctls so far. -/
structure DedupeRun where
  ctxt : DedupeCtxt
  fsBlocksize : Nat
  ioctls : Nat
  pc : DedupePc
  deriving DecidableEq, Repr

namespace DedupeRun

def start (ctxt : DedupeCtxt) (fsBlocksize ioctls : Nat) : DedupeRun :=
  ⟨ctxt, fsBlocksize, ioctls, .loopHead⟩

/-- The test of the `while` loop, and the start of a request. -/
def stepLoopHead (s : DedupeRun) : DedupeRun :=
  if s.ctxt.queued = [] then { s with pc := .returned 0 }
  else
    { s with
      ctxt := populateStart s.fsBlocksize s.ctxt
      pc := .populating (.first DedupeReq.id s.ctxt.queued) }

def stepPopulating (s : DedupeRun) (cursor : SafeList.Cursor Nat) : DedupeRun :=
  match cursor.cur.bind (SafeList.at? DedupeReq.id s.ctxt.queued) with
  | none => { s with pc := .ioctl }
  | some req =>
    match populateOne s.ctxt req with
    | none => { s with pc := .aborted }
    | some ctxt =>
      { s with ctxt := ctxt, pc := .populating (cursor.advance DedupeReq.id ctxt.queued) }

/-- The ioctl with its error, its retry with an aligned length, and the start of
    the processing. -/
def stepIoctl (kernel : Nat → KernelAnswer) (s : DedupeRun) : DedupeRun :=
  let answer := kernel s.ioctls
  let s : DedupeRun := { s with ioctls := s.ioctls + 1 }
  if answer.ret ≠ 0 then { s with pc := .returned answer.ret }
  else
    let ctxt : DedupeCtxt := { s.ctxt with same := s.ctxt.same.answered answer }
    if (ctxt.same.infoAt 0).status = -einval ∧ s.fsBlocksize = 0 then
      let fsBlocksize := Word.wrap 32 answer.fBsize
      { s with
        ctxt := { ctxt with same := setAlignedSameLength fsBlocksize ctxt ctxt.same }
        fsBlocksize := fsBlocksize
        pc := .ioctl }
    else
      { s with ctxt := ctxt, pc := .processing (.first DedupeReq.id ctxt.inProgress) 0 }

def stepProcessing (s : DedupeRun) (cursor : SafeList.Cursor Nat) (maxDeduped : Nat) :
    DedupeRun :=
  match cursor.cur.bind (SafeList.at? DedupeReq.id s.ctxt.inProgress) with
  | none => { s with ctxt := processEnd s.fsBlocksize s.ctxt maxDeduped, pc := .loopHead }
  | some req =>
    let ctxt := processOne s.ctxt req
    { s with
      ctxt := ctxt
      pc := .processing (cursor.advance DedupeReq.id ctxt.inProgress)
        (max maxDeduped (s.ctxt.same.infoAt req.reqIdx).bytesDeduped) }

/-- One transition. A run that returned or aborted stays where it is. -/
def step (kernel : Nat → KernelAnswer) (s : DedupeRun) : DedupeRun :=
  match s.pc with
  | .loopHead => s.stepLoopHead
  | .populating cursor => s.stepPopulating cursor
  | .ioctl => s.stepIoctl kernel
  | .processing cursor maxDeduped => s.stepProcessing cursor maxDeduped
  | .returned _ => s
  | .aborted => s

/-- One transition of the loop that runs `dedupe_extents` to its end. -/
def round (kernel : Nat → KernelAnswer) (s : DedupeRun) : Loop.Next DedupeRun DedupeRun :=
  match s.pc with
  | .returned _ => .leave s
  | .aborted => .leave s
  | _ => .again (step kernel s)

/-- The states that a run passes through. -/
def Reaches (kernel : Nat → KernelAnswer) (s s' : DedupeRun) : Prop :=
  ∃ n, (step kernel)^[n] s = s'

end DedupeRun

/-- `dedupe_extents` up to its end. A kernel that answers zero bytes and status
    zero keeps it running, so the transitions are bounded, and `none` is a run
    that does not end within the bound. -/
def dedupeExtents (kernel : Nat → KernelAnswer) (fuel : Nat) (ctxt : DedupeCtxt)
    (fsBlocksize ioctls : Nat) : Option DedupeRun :=
  Loop.run (DedupeRun.round kernel) fuel (.start ctxt fsBlocksize ioctls)

-- ---------------------------------------------------------------------------
-- The results
-- ---------------------------------------------------------------------------

/-- What `pop_one_dedupe_result` passes back, with the request it came from. -/
structure DedupeResult where
  req : Nat
  status : Int
  off : Nat
  bytesDeduped : Nat
  file : FileId
  deriving DecidableEq, Repr

/-- `pop_one_dedupe_result`: the result, whether it was the last one, and the
    context. `none` is the abort. -/
def popOneDedupeResult (ctxt : DedupeCtxt) : Option (DedupeResult × Bool × DedupeCtxt) :=
  match ctxt.completed with
  | [] => none
  | req :: completed =>
    some (⟨req.id, req.reqStatus, Word.sub 64 req.reqLoff req.reqTotal, req.reqTotal, req.reqFile⟩,
      completed.isEmpty, { ctxt with completed := completed })

/-- Whether `process_dedupe_results` prints an error for a result. A destination
    in the target's own file may fail with `EINVAL` on old kernels. -/
def isReported (ctxt : DedupeCtxt) (r : DedupeResult) : Bool :=
  !(r.status == 0 || (r.status == -einval && r.file == ctxt.ioctlFile))

/-- The variables of `process_dedupe_results`: the context, the byte counter, the
    results popped so far, and those it printed an error for. -/
structure ResultsWalk where
  ctxt : DedupeCtxt
  kernBytes : Nat
  popped : List DedupeResult
  reported : List DedupeResult
  deriving DecidableEq, Repr

/-- One round of `process_dedupe_results`; it leaves with `none` at the abort. -/
def resultsRound (w : ResultsWalk) : Loop.Next ResultsWalk (Option ResultsWalk) :=
  match popOneDedupeResult w.ctxt with
  | none => .leave none
  | some (result, done, ctxt) =>
    let w : ResultsWalk :=
      { ctxt := ctxt
        kernBytes := Word.wrap 64 (w.kernBytes + result.bytesDeduped)
        popped := w.popped ++ [result]
        reported := if isReported ctxt result then w.reported ++ [result] else w.reported }
    if done then .leave (some w) else .again w

def processDedupeResults (ctxt : DedupeCtxt) (kernBytes : Nat) : Option (Option ResultsWalk) :=
  Loop.run resultsRound (ctxt.completed.length + 1) ⟨ctxt, kernBytes, [], []⟩

end Duperemove
