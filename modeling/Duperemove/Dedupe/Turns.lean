-- SUMMARY: `dedupe_extents` in big steps: a whole request from the queue, and a whole answer back to the lists.
import Duperemove.Dedupe.Coverage
import Duperemove.Lib.Checkpoint
import Duperemove.Lib.Steps

/-!
# Turns of `dedupe_extents`

The machine of `dedupe_extents` moves one request at a time. Between the head of
its loop and the ioctl it does nothing but fill the request, and behind the ioctl
nothing but take the answer apart. `DedupeRun.turn` does each of these in one go,
with the loops of `populate_dedupe_request` and `process_dedupes` as folds over
the list that they walk. The two runs pass through the same states at the head of
the loop and at the ioctl, so what is shown about turns holds for the machine.
-/

namespace Duperemove

/-! ## Filling a request -/

/-- `populate_dedupe_request`: its loop is a fold over the queue it finds. -/
def populateDedupeRequest (fsBlocksize : Nat) (ctxt : DedupeCtxt) : Option DedupeCtxt :=
  ctxt.queued.foldlM populateOne (populateStart fsBlocksize ctxt)

/-- The structure after `add_dedupe_request`. -/
def DedupeRange.withRequest (same : DedupeRange) (req : DedupeReq) : DedupeRange :=
  { same with
    info := same.info.modify same.destCount fun info =>
      { info with destFd := req.reqFile, destOffset := req.reqLoff, bytesDeduped := 0 }
    destCount := Word.wrap 16 (same.destCount + 1) }

/-- The requests with their indices from `i` on. -/
def numbered (i : Nat) (reqs : List DedupeReq) : List DedupeReq :=
  (reqs.zipIdx i).map fun p => { p.1 with reqIdx := p.2 }

section Populate

variable {ctxt : DedupeCtxt} {req : DedupeReq} {rest : List DedupeReq}

theorem numbered_cons (i : Nat) (req : DedupeReq) (rest : List DedupeReq) :
    numbered i (req :: rest) = { req with reqIdx := i } :: numbered (i + 1) rest := rfl

@[simp] theorem numbered_length (i : Nat) (reqs : List DedupeReq) :
    (numbered i reqs).length = reqs.length := by
  simp [numbered]

/-- Numbering keeps what does not depend on the index. -/
theorem forall_mem_numbered {P : DedupeReq → Prop} (hP : ∀ r i, P { r with reqIdx := i } ↔ P r)
    (i : Nat) (reqs : List DedupeReq) : (∀ r ∈ numbered i reqs, P r) ↔ ∀ r ∈ reqs, P r := by
  induction reqs generalizing i with
  | nil => exact ⟨fun _ _ h => (List.not_mem_nil h).elim, fun _ _ h => (List.not_mem_nil h).elim⟩
  | cons req rest ih => rw [numbered_cons, List.forall_mem_cons, List.forall_mem_cons, hP, ih]

/-- One round of the loop, at the head of the queue. -/
theorem populateOne_eq (hqueued : ctxt.queued = req :: rest)
    (hroom : ctxt.same.destCount < ctxt.maxQueable) :
    populateOne ctxt req = some { ctxt with
      same := ctxt.same.withRequest req
      queued := rest
      inProgress := ctxt.inProgress ++ [{ req with reqIdx := ctxt.same.destCount }]
      numQueued := Word.sub 32 ctxt.numQueued 1 } := by
  simp only [populateOne, addDedupeRequest, ge_iff_le, Nat.not_le.2 hroom, if_false, hqueued,
    SafeList.unlink_cons_self, DedupeRange.withRequest]

/-- The loop moves the whole queue, in order, and numbers it. -/
theorem foldlM_populateOne {reqs : List DedupeReq} (hqueued : ctxt.queued = reqs)
    (hroom : ctxt.same.destCount + reqs.length ≤ ctxt.maxQueable) (hsmall : ctxt.maxQueable ≤ 119) :
    ∃ numQueued, reqs.foldlM populateOne ctxt = some { ctxt with
      same := reqs.foldl DedupeRange.withRequest ctxt.same
      queued := []
      inProgress := ctxt.inProgress ++ numbered ctxt.same.destCount reqs
      numQueued := numQueued } := by
  induction reqs generalizing ctxt with
  | nil =>
    refine ⟨ctxt.numQueued, ?_⟩
    cases ctxt
    cases hqueued
    simp [numbered]
  | cons req rest ih =>
    rw [List.length_cons] at hroom
    have hwrap : Word.wrap 16 (ctxt.same.destCount + 1) = ctxt.same.destCount + 1 :=
      Word.wrap_of_lt (by omega)
    obtain ⟨numQueued, hrest⟩ := @ih { ctxt with
        same := ctxt.same.withRequest req
        queued := rest
        inProgress := ctxt.inProgress ++ [{ req with reqIdx := ctxt.same.destCount }]
        numQueued := Word.sub 32 ctxt.numQueued 1 } rfl
      (by simp only [DedupeRange.withRequest, hwrap]; omega) hsmall
    refine ⟨numQueued, ?_⟩
    rw [List.foldlM_cons, populateOne_eq hqueued (by omega)]
    refine hrest.trans ?_
    simp only [DedupeRange.withRequest, hwrap, numbered_cons, List.append_assoc,
      List.singleton_append, List.foldl_cons]

/-- What the loop leaves alone in the structure, and how many destinations it adds. -/
theorem foldl_withRequest_fields {same : DedupeRange} {reqs : List DedupeReq}
    (hsmall : same.destCount + reqs.length < 2 ^ 16) :
    (reqs.foldl DedupeRange.withRequest same).srcOffset = same.srcOffset ∧
      (reqs.foldl DedupeRange.withRequest same).srcLength = same.srcLength ∧
      (reqs.foldl DedupeRange.withRequest same).info.length = same.info.length ∧
      (reqs.foldl DedupeRange.withRequest same).destCount = same.destCount + reqs.length := by
  induction reqs generalizing same with
  | nil => exact ⟨rfl, rfl, rfl, rfl⟩
  | cons req rest ih =>
    rw [List.length_cons] at hsmall
    have hcount : (same.withRequest req).destCount = same.destCount + 1 :=
      Word.wrap_of_lt (by omega)
    obtain ⟨hoff, hlen, hinfo, hdest⟩ := @ih (same.withRequest req) (by omega)
    refine ⟨hoff, hlen, ?_, ?_⟩
    · rw [List.foldl_cons, hinfo, DedupeRange.withRequest, List.length_modify]
    · rw [List.foldl_cons, hdest, hcount, List.length_cons]
      omega

/-- A destination that was written stays as it is, and each request of the loop is
    written to its own one. -/
theorem foldl_withRequest_infoAt {same : DedupeRange} {reqs : List DedupeReq}
    (hsmall : same.destCount + reqs.length < 2 ^ 16)
    (hroom : same.destCount + reqs.length ≤ same.info.length) :
    (∀ i < same.destCount,
      (reqs.foldl DedupeRange.withRequest same).infoAt i = same.infoAt i) ∧
    ∀ req ∈ numbered same.destCount reqs,
      ((reqs.foldl DedupeRange.withRequest same).infoAt req.reqIdx).destFd = req.reqFile ∧
      ((reqs.foldl DedupeRange.withRequest same).infoAt req.reqIdx).destOffset = req.reqLoff := by
  induction reqs generalizing same with
  | nil => exact ⟨fun _ _ => rfl, fun _ h => by cases h⟩
  | cons req rest ih =>
    rw [List.length_cons] at hsmall hroom
    have hcount : (same.withRequest req).destCount = same.destCount + 1 :=
      Word.wrap_of_lt (by omega)
    obtain ⟨hkeep, hnew⟩ := @ih (same.withRequest req) (by omega)
      (by rw [hcount, DedupeRange.withRequest, List.length_modify]; omega)
    rw [hcount] at hkeep hnew
    constructor
    · intro i hi
      rw [List.foldl_cons, hkeep i (by omega)]
      simp only [DedupeRange.infoAt, DedupeRange.withRequest, List.getD_eq_getElem?_getD,
        List.getElem?_modify, Nat.ne_of_gt hi, if_false]
      simp
    · rw [numbered_cons]
      refine List.forall_mem_cons.2 ⟨?_, hnew⟩
      have hat : (same.withRequest req).infoAt same.destCount =
          { same.infoAt same.destCount with
            destFd := req.reqFile, destOffset := req.reqLoff, bytesDeduped := 0 } := by
        have hlt : same.destCount < same.info.length := by omega
        simp [DedupeRange.infoAt, DedupeRange.withRequest, hlt]
      rw [List.foldl_cons, hkeep _ (Nat.lt_succ_self _), hat]
      exact ⟨rfl, rfl⟩

end Populate

/-! ## Taking an answer apart -/

namespace DedupeRange

/-- The answer for a request. -/
def reply (same : DedupeRange) (req : DedupeReq) : DedupeRangeInfo := same.infoAt req.reqIdx

/-- A request after its answer. -/
def served (same : DedupeRange) (req : DedupeReq) : DedupeReq :=
  req.advance (same.reply req).bytesDeduped

/-- A request after its answer, with the status that `process_dedupes` takes over. -/
def settled (same : DedupeRange) (req : DedupeReq) : DedupeReq :=
  { same.served req with reqStatus := (same.reply req).status }

/-- The test of `process_dedupes` for another go around. -/
def GoesAround (same : DedupeRange) (origLen : Nat) (req : DedupeReq) : Prop :=
  (same.reply req).status = 0 ∧ (same.served req).reqTotal < origLen

instance (same : DedupeRange) (origLen : Nat) : DecidablePred (same.GoesAround origLen) :=
  fun _ => inferInstanceAs (Decidable (_ ∧ _))

/-- The largest count among the answers for `reqs`, as `max_deduped` is computed. -/
def maxDeduped (same : DedupeRange) (reqs : List DedupeReq) : Nat :=
  reqs.foldl (fun m req => max m (same.reply req).bytesDeduped) 0

end DedupeRange

/-- `process_dedupes`: its loop is a fold over the requests in progress. -/
def processDedupes (fsBlocksize : Nat) (ctxt : DedupeCtxt) : DedupeCtxt :=
  processEnd fsBlocksize (ctxt.inProgress.foldl processOne ctxt)
    (ctxt.same.maxDeduped ctxt.inProgress)

section Process

variable {ctxt : DedupeCtxt} {req : DedupeReq} {rest : List DedupeReq}

/-- One round of the loop, at the head of the requests in progress. -/
theorem processOne_eq (hprogress : ctxt.inProgress = req :: rest) :
    ∃ numQueued, processOne ctxt req = { ctxt with
      inProgress := rest
      queued := ctxt.queued ++
        if ctxt.same.GoesAround ctxt.origLen req then [ctxt.same.served req] else []
      completed := ctxt.completed ++
        if ctxt.same.GoesAround ctxt.origLen req then [] else [ctxt.same.settled req]
      numQueued := numQueued } := by
  have hiff : ((ctxt.same.infoAt req.reqIdx).status ≠ 0 ∨
      (req.advance (ctxt.same.infoAt req.reqIdx).bytesDeduped).reqTotal ≥ ctxt.origLen) ↔
      ¬ ctxt.same.GoesAround ctxt.origLen req := by
    simp only [DedupeRange.GoesAround, DedupeRange.served, DedupeRange.reply, not_and_or,
      Nat.not_lt, ge_iff_le, ne_eq]
  simp only [processOne, hiff, hprogress, SafeList.unlink_cons_self]
  by_cases hgoes : ctxt.same.GoesAround ctxt.origLen req
  · refine ⟨Word.wrap 32 (ctxt.numQueued + 1), ?_⟩
    rw [if_neg (not_not_intro hgoes), if_pos hgoes, if_pos hgoes, List.append_nil]
    rfl
  · refine ⟨ctxt.numQueued, ?_⟩
    rw [if_pos hgoes, if_neg hgoes, if_neg hgoes, List.append_nil]
    rfl

/-- The loop moves the requests that go around back to the queue, and completes the
    others. -/
theorem foldl_processOne {reqs : List DedupeReq} (hprogress : ctxt.inProgress = reqs) :
    ∃ numQueued, reqs.foldl processOne ctxt = { ctxt with
      inProgress := []
      queued := ctxt.queued ++
        (reqs.filter (ctxt.same.GoesAround ctxt.origLen ·)).map ctxt.same.served
      completed := ctxt.completed ++
        (reqs.filter (¬ ctxt.same.GoesAround ctxt.origLen ·)).map ctxt.same.settled
      numQueued := numQueued } := by
  induction reqs generalizing ctxt with
  | nil =>
    refine ⟨ctxt.numQueued, ?_⟩
    cases ctxt
    cases hprogress
    simp
  | cons req rest ih =>
    obtain ⟨between, hone⟩ := processOne_eq hprogress
    rw [List.foldl_cons, hone]
    obtain ⟨numQueued, hrest⟩ := @ih { ctxt with
      inProgress := rest
      queued := ctxt.queued ++
        if ctxt.same.GoesAround ctxt.origLen req then [ctxt.same.served req] else []
      completed := ctxt.completed ++
        if ctxt.same.GoesAround ctxt.origLen req then [] else [ctxt.same.settled req]
      numQueued := between } rfl
    refine ⟨numQueued, hrest.trans ?_⟩
    by_cases hreq : ctxt.same.GoesAround ctxt.origLen req
    · simp [hreq]
    · simp [hreq]

/-- What is left to do behind an answer, and what `process_dedupes` compares with the
    block size. -/
def DedupeCtxt.lenLeft (ctxt : DedupeCtxt) : Nat :=
  Word.sub 64 ctxt.len (ctxt.same.maxDeduped ctxt.inProgress)

/-- The requests that stay for another ioctl. In aligned mode there are none when
    less than a block is left. -/
def DedupeCtxt.requeued (fsBlocksize : Nat) (ctxt : DedupeCtxt) : List DedupeReq :=
  if fsBlocksize ≠ 0 ∧ ctxt.lenLeft < fsBlocksize then []
  else ctxt.inProgress.filter (ctxt.same.GoesAround ctxt.origLen ·)

/-- What `process_dedupes` makes of a context. -/
structure Processed (fsBlocksize : Nat) (ctxt ctxt' : DedupeCtxt) : Prop where
  queued : ctxt'.queued = (ctxt.requeued fsBlocksize).map ctxt.same.served
  inProgress : ctxt'.inProgress = []
  completed : fsBlocksize = 0 → ctxt'.completed = ctxt.completed ++
    (ctxt.inProgress.filter (¬ ctxt.same.GoesAround ctxt.origLen ·)).map ctxt.same.settled
  len : ctxt'.len = ctxt.lenLeft
  ioctlFileOff : ctxt'.ioctlFileOff =
    Word.wrap 64 (ctxt.ioctlFileOff + ctxt.same.maxDeduped ctxt.inProgress)
  same : ctxt'.same = ctxt.same
  maxQueable : ctxt'.maxQueable = ctxt.maxQueable

theorem processDedupes_processed (fsBlocksize : Nat) (hqueued : ctxt.queued = []) :
    Processed fsBlocksize ctxt (processDedupes fsBlocksize ctxt) := by
  obtain ⟨numQueued, hloop⟩ := @foldl_processOne ctxt _ rfl
  rw [processDedupes, hloop, hqueued, List.nil_append]
  simp only [processEnd]
  split
  case isTrue hshort =>
    refine ⟨?_, rfl, fun hzero => absurd hzero hshort.1, rfl, rfl, rfl, rfl⟩
    rw [DedupeCtxt.requeued, DedupeCtxt.lenLeft, if_pos hshort, List.map_nil]
  case isFalse hlong =>
    refine ⟨?_, rfl, fun _ => rfl, rfl, rfl, rfl, rfl⟩
    rw [DedupeCtxt.requeued, DedupeCtxt.lenLeft, if_neg hlong]

theorem mem_inProgress_of_requeued {fsBlocksize : Nat} (h : req ∈ ctxt.requeued fsBlocksize) :
    req ∈ ctxt.inProgress := by
  unfold DedupeCtxt.requeued at h
  split at h
  · cases h
  · exact (List.mem_filter.1 h).1

theorem requeued_length_le (fsBlocksize : Nat) (ctxt : DedupeCtxt) :
    (ctxt.requeued fsBlocksize).length ≤ ctxt.inProgress.length := by
  unfold DedupeCtxt.requeued
  split
  · exact Nat.zero_le _
  · exact List.length_filter_le _ _

/-- A request that failed does not stay. -/
theorem requeued_length_lt {fsBlocksize : Nat} (hreq : req ∈ ctxt.inProgress)
    (hstatus : (ctxt.same.reply req).status ≠ 0) :
    (ctxt.requeued fsBlocksize).length < ctxt.inProgress.length := by
  unfold DedupeCtxt.requeued
  split
  · exact List.length_pos_of_mem hreq
  · apply List.length_filter_lt_length_iff_exists.2
    exact ⟨req, hreq, by simp [DedupeRange.GoesAround, hstatus]⟩

theorem maxDeduped_le_iff (same : DedupeRange) (reqs : List DedupeReq) (b : Nat) :
    same.maxDeduped reqs ≤ b ↔ ∀ req ∈ reqs, (same.reply req).bytesDeduped ≤ b := by
  have hfold : ∀ m, reqs.foldl (fun m req => max m (same.reply req).bytesDeduped) m ≤ b ↔
      m ≤ b ∧ ∀ req ∈ reqs, (same.reply req).bytesDeduped ≤ b := by
    induction reqs with
    | nil => simp
    | cons req rest ih =>
      intro m
      rw [List.foldl_cons, ih, Nat.max_le, List.forall_mem_cons, and_assoc]
  rw [DedupeRange.maxDeduped, hfold]
  exact and_iff_right (Nat.zero_le b)

theorem reply_le_maxDeduped (same : DedupeRange) {reqs : List DedupeReq} {req : DedupeReq}
    (hreq : req ∈ reqs) : (same.reply req).bytesDeduped ≤ same.maxDeduped reqs :=
  (maxDeduped_le_iff same reqs _).1 (Nat.le_refl _) req hreq

/-- When all answers have one count, it is the largest. -/
theorem maxDeduped_eq_of_forall {same : DedupeRange} {reqs : List DedupeReq} {count : Nat}
    (hne : reqs ≠ []) (hall : ∀ req ∈ reqs, (same.reply req).bytesDeduped = count) :
    same.maxDeduped reqs = count := by
  obtain ⟨req, rest, hcons⟩ := List.exists_cons_of_ne_nil hne
  have hreq : req ∈ reqs := hcons ▸ List.mem_cons_self
  apply Nat.le_antisymm
  · exact (maxDeduped_le_iff _ _ _).2 fun req hreq => Nat.le_of_eq (hall req hreq)
  · rw [← hall req hreq]
    exact reply_le_maxDeduped _ hreq

end Process

/-! ## Turns -/

namespace DedupeRun

/-- The states that a turn leads to: all but those inside the two loops. -/
def Visible (s : DedupeRun) : Prop :=
  match s.pc with
  | .populating _ => False
  | .processing _ _ => False
  | _ => True

/-- From the head of the loop to the ioctl, or from the ioctl to the head of the
    loop, to its retry or to the end. -/
def turn (kernel : Nat → KernelAnswer) (s : DedupeRun) : DedupeRun :=
  match s.pc with
  | .loopHead =>
    if s.ctxt.queued = [] then { s with pc := .returned 0 }
    else
      match populateDedupeRequest s.fsBlocksize s.ctxt with
      | none => { s with pc := .aborted }
      | some ctxt => { s with ctxt := ctxt, pc := .ioctl }
  | .ioctl =>
    let s' := s.stepIoctl kernel
    match s'.pc with
    | .processing _ _ =>
      { s' with ctxt := processDedupes s'.fsBlocksize s'.ctxt, pc := .loopHead }
    | _ => s'
  | _ => s

/-- The context with the kernel's answer to the ioctl that is about to be issued. -/
def answered (kernel : Nat → KernelAnswer) (s : DedupeRun) : DedupeCtxt :=
  { s.ctxt with same := s.ctxt.same.answered (kernel s.ioctls) }

/-- The test for a retry with an aligned length. -/
def Retries (kernel : Nat → KernelAnswer) (s : DedupeRun) : Prop :=
  ((s.answered kernel).same.infoAt 0).status = -einval ∧ s.fsBlocksize = 0

/-- The answer to the ioctl goes to `process_dedupes`. -/
structure Processes (kernel : Nat → KernelAnswer) (s : DedupeRun) : Prop where
  pc : s.pc = .ioctl
  ret : (kernel s.ioctls).ret = 0
  aligned : ¬ s.Retries kernel

variable {kernel : Nat → KernelAnswer} {s : DedupeRun}

theorem turn_loopHead_nil (hpc : s.pc = .loopHead) (hqueued : s.ctxt.queued = []) :
    s.turn kernel = { s with pc := .returned 0 } := by
  simp only [turn, hpc, hqueued, if_true]

theorem turn_loopHead (hpc : s.pc = .loopHead) (hqueued : s.ctxt.queued ≠ [])
    {ctxt : DedupeCtxt} (hfill : populateDedupeRequest s.fsBlocksize s.ctxt = some ctxt) :
    s.turn kernel = { s with ctxt := ctxt, pc := .ioctl } := by
  simp only [turn, hpc, hqueued, if_false, hfill]

/-- What an ioctl leads to: the end, a retry, or the answer's loop. -/
theorem stepIoctl_cases (kernel : Nat → KernelAnswer) (s : DedupeRun) (hpc : s.pc = .ioctl) :
    ((kernel s.ioctls).ret ≠ 0 ∧ s.stepIoctl kernel =
      { s with ioctls := s.ioctls + 1, pc := .returned (kernel s.ioctls).ret }) ∨
    ((kernel s.ioctls).ret = 0 ∧ s.Retries kernel ∧ s.stepIoctl kernel =
      { s with
        ctxt := { s.answered kernel with
          same := setAlignedSameLength (Word.wrap 32 (kernel s.ioctls).fBsize) (s.answered kernel)
            (s.answered kernel).same }
        fsBlocksize := Word.wrap 32 (kernel s.ioctls).fBsize
        ioctls := s.ioctls + 1
        pc := .ioctl }) ∨
    (s.Processes kernel ∧ s.stepIoctl kernel =
      { s with
        ctxt := s.answered kernel
        ioctls := s.ioctls + 1
        pc := .processing (.first DedupeReq.id s.ctxt.inProgress) 0 }) := by
  by_cases hret : (kernel s.ioctls).ret = 0
  · refine .inr ?_
    by_cases hretry : s.Retries kernel
    · refine .inl ⟨hret, hretry, ?_⟩
      simp only [Retries, answered] at hretry
      simp only [stepIoctl, hret, ne_eq, not_true_eq_false, if_false, hretry, and_self, if_true,
        answered]
    · refine .inr ⟨⟨hpc, hret, hretry⟩, ?_⟩
      simp only [Retries, answered] at hretry
      simp only [stepIoctl, hret, ne_eq, not_true_eq_false, if_false, hretry, answered]
  · refine .inl ⟨hret, ?_⟩
    simp only [stepIoctl, ne_eq, hret, not_false_eq_true, if_true]

theorem turn_of_fails (hpc : s.pc = .ioctl) (hret : (kernel s.ioctls).ret ≠ 0) :
    s.turn kernel =
      { s with ioctls := s.ioctls + 1, pc := .returned (kernel s.ioctls).ret } := by
  rcases stepIoctl_cases kernel s hpc with ⟨-, hstep⟩ | ⟨hzero, -⟩ | ⟨hproc, -⟩
  · simp only [turn, hpc, hstep]
  · exact absurd hzero hret
  · exact absurd hproc.ret hret

theorem turn_of_retries (hpc : s.pc = .ioctl) (hret : (kernel s.ioctls).ret = 0)
    (hretry : s.Retries kernel) :
    s.turn kernel =
      { s with
        ctxt := { s.answered kernel with
          same := setAlignedSameLength (Word.wrap 32 (kernel s.ioctls).fBsize) (s.answered kernel)
            (s.answered kernel).same }
        fsBlocksize := Word.wrap 32 (kernel s.ioctls).fBsize
        ioctls := s.ioctls + 1
        pc := .ioctl } := by
  rcases stepIoctl_cases kernel s hpc with ⟨hfail, -⟩ | ⟨-, -, hstep⟩ | ⟨hproc, -⟩
  · exact absurd hret hfail
  · simp only [turn, hpc, hstep]
  · exact absurd hretry hproc.aligned

theorem turn_of_processes (h : s.Processes kernel) :
    s.turn kernel =
      { s with
        ctxt := processDedupes s.fsBlocksize (s.answered kernel)
        ioctls := s.ioctls + 1
        pc := .loopHead } := by
  rcases stepIoctl_cases kernel s h.pc with ⟨hfail, -⟩ | ⟨-, hretry, -⟩ | ⟨-, hstep⟩
  · exact absurd h.ret hfail
  · exact absurd hretry h.aligned
  · simp only [turn, h.pc, hstep]

/-- What a turn from the ioctl can be. -/
theorem ioctl_cases (kernel : Nat → KernelAnswer) (hpc : s.pc = .ioctl) :
    (kernel s.ioctls).ret ≠ 0 ∨ ((kernel s.ioctls).ret = 0 ∧ s.Retries kernel) ∨
      s.Processes kernel := by
  rcases stepIoctl_cases kernel s hpc with ⟨hfail, -⟩ | ⟨hzero, hretry, -⟩ | ⟨hproc, -⟩
  · exact .inl hfail
  · exact .inr (.inl ⟨hzero, hretry⟩)
  · exact .inr (.inr hproc)

end DedupeRun

section Leaps

variable {kernel : Nat → KernelAnswer} {added : List (Nat × FileId)} {s : DedupeRun}

/-- The loop of `populate_dedupe_request` leads to the ioctl. -/
theorem leaps_populating {reqs : List DedupeReq} {ctxt : DedupeCtxt}
    (hpc : s.pc = .populating (.first DedupeReq.id s.ctxt.queued)) (hqueued : s.ctxt.queued = reqs)
    (hroom : s.ctxt.same.destCount + reqs.length ≤ s.ctxt.maxQueable)
    (hsmall : s.ctxt.maxQueable ≤ 119) (hfill : reqs.foldlM populateOne s.ctxt = some ctxt) :
    Checkpoint.Leaps (DedupeRun.step kernel) DedupeRun.Visible s
      { s with ctxt := ctxt, pc := .ioctl } := by
  induction reqs generalizing s with
  | nil =>
    cases hfill
    apply Checkpoint.Leaps.one
    simp [DedupeRun.step, hpc, DedupeRun.stepPopulating, hqueued]
  | cons req rest ih =>
    rw [List.length_cons] at hroom
    have hone := populateOne_eq hqueued (by omega)
    obtain ⟨c, hc, hrest⟩ := Steps.run_cons.1 hfill
    have hc' := hone.symm.trans hc
    have hstep : DedupeRun.step kernel s =
        { s with ctxt := c, pc := .populating (.first DedupeReq.id c.queued) } := by
      cases hc'
      simp only [DedupeRun.step, hpc, DedupeRun.stepPopulating, hqueued, SafeList.first_cur,
        List.head?_cons, Option.map_some, Option.bind_some, SafeList.at?_cons_self, hone,
        SafeList.advance_first]
    have hwrap : Word.wrap 16 (s.ctxt.same.destCount + 1) = s.ctxt.same.destCount + 1 :=
      Word.wrap_of_lt (by omega)
    apply Checkpoint.Leaps.cons
    · rw [hstep]
      exact id
    · rw [hstep]
      refine @ih { s with ctxt := c, pc := .populating (.first DedupeReq.id c.queued) } rfl ?_ ?_
        ?_ hrest
      · cases hc'
        rfl
      · cases hc'
        simp only [DedupeRange.withRequest, hwrap]
        omega
      · cases hc'
        exact hsmall

/-- The loop of `process_dedupes` leads to the head of the outer loop. -/
theorem leaps_processing {reqs : List DedupeReq} {maxDeduped : Nat}
    (hpc : s.pc = .processing (.first DedupeReq.id s.ctxt.inProgress) maxDeduped)
    (hprogress : s.ctxt.inProgress = reqs) :
    Checkpoint.Leaps (DedupeRun.step kernel) DedupeRun.Visible s
      { s with
        ctxt := processEnd s.fsBlocksize (reqs.foldl processOne s.ctxt)
          (reqs.foldl (fun m req => max m (s.ctxt.same.reply req).bytesDeduped) maxDeduped)
        pc := .loopHead } := by
  induction reqs generalizing s maxDeduped with
  | nil =>
    apply Checkpoint.Leaps.one
    simp [DedupeRun.step, hpc, DedupeRun.stepProcessing, hprogress]
  | cons req rest ih =>
    obtain ⟨numQueued, hone⟩ := processOne_eq hprogress
    have hstep : DedupeRun.step kernel s =
        { s with
          ctxt := processOne s.ctxt req
          pc := .processing (.first DedupeReq.id (processOne s.ctxt req).inProgress)
            (max maxDeduped (s.ctxt.same.reply req).bytesDeduped) } := by
      have hrest : (processOne s.ctxt req).inProgress = rest := by rw [hone]
      rw [hrest]
      simp only [DedupeRun.step, hpc, DedupeRun.stepProcessing, hprogress, SafeList.first_cur,
        List.head?_cons, Option.map_some, Option.bind_some, SafeList.at?_cons_self, hrest,
        SafeList.advance_first]
      rfl
    apply Checkpoint.Leaps.cons
    · rw [hstep]
      exact id
    · rw [hstep]
      have hsame : (processOne s.ctxt req).same = s.ctxt.same := by rw [hone]
      have hnext := @ih { s with
          ctxt := processOne s.ctxt req
          pc := .processing (.first DedupeReq.id (processOne s.ctxt req).inProgress)
            (max maxDeduped (s.ctxt.same.reply req).bytesDeduped) } _ rfl (by rw [hone])
      simp only [hsame] at hnext
      exact hnext

/-- A filled request exists whenever the invariant holds at the head of the loop. -/
theorem populateDedupeRequest_eq (h : s.Inv added) (hpc : s.pc = .loopHead) :
    ∃ numQueued, populateDedupeRequest s.fsBlocksize s.ctxt = some
      { populateStart s.fsBlocksize s.ctxt with
        same := s.ctxt.queued.foldl DedupeRange.withRequest
          (populateStart s.fsBlocksize s.ctxt).same
        queued := []
        inProgress := numbered 0 s.ctxt.queued
        numQueued := numQueued } := by
  have hprogress := h.idle hpc
  have hlen := h.length
  have hroom := h.room
  obtain ⟨numQueued, hfill⟩ := @foldlM_populateOne (populateStart s.fsBlocksize s.ctxt)
    s.ctxt.queued rfl (by rw [populateStart_destCount]; change _ ≤ s.ctxt.maxQueable; omega) h.small
  refine ⟨numQueued, hfill.trans ?_⟩
  rw [populateStart_inProgress, hprogress, populateStart_destCount, List.nil_append]

/-- A turn from the head of the loop, -/
theorem leaps_loopHead (h : s.Inv added) (hpc : s.pc = .loopHead) :
    Checkpoint.Leaps (DedupeRun.step kernel) DedupeRun.Visible s (s.turn kernel) := by
  by_cases hqueued : s.ctxt.queued = []
  · apply Checkpoint.Leaps.one
    rw [DedupeRun.turn_loopHead_nil hpc hqueued]
    simp only [DedupeRun.step, hpc, DedupeRun.stepLoopHead, hqueued, if_true]
  · obtain ⟨numQueued, hfill⟩ := populateDedupeRequest_eq h hpc
    rw [DedupeRun.turn_loopHead hpc hqueued hfill]
    have hstep : DedupeRun.step kernel s =
        { s with
          ctxt := populateStart s.fsBlocksize s.ctxt
          pc := .populating (.first DedupeReq.id s.ctxt.queued) } := by
      simp only [DedupeRun.step, hpc, DedupeRun.stepLoopHead, hqueued, if_false]
    have hlen := h.length
    have hroom := h.room
    apply Checkpoint.Leaps.cons
    · rw [hstep]
      exact id
    · rw [hstep]
      refine leaps_populating (s := { s with
          ctxt := populateStart s.fsBlocksize s.ctxt
          pc := .populating (.first DedupeReq.id s.ctxt.queued) }) rfl rfl ?_ h.small hfill
      rw [populateStart_destCount]
      change 0 + s.ctxt.queued.length ≤ s.ctxt.maxQueable
      omega

/-- and one from the ioctl. -/
theorem leaps_ioctl (hpc : s.pc = .ioctl) :
    Checkpoint.Leaps (DedupeRun.step kernel) DedupeRun.Visible s (s.turn kernel) := by
  have hstep : DedupeRun.step kernel s = s.stepIoctl kernel := by
    simp only [DedupeRun.step, hpc]
  rcases DedupeRun.stepIoctl_cases kernel s hpc with
    ⟨hfail, hioctl⟩ | ⟨hzero, hretry, hioctl⟩ | ⟨hproc, hioctl⟩
  · apply Checkpoint.Leaps.one
    rw [hstep, hioctl, DedupeRun.turn_of_fails hpc hfail]
  · apply Checkpoint.Leaps.one
    rw [hstep, hioctl, DedupeRun.turn_of_retries hpc hzero hretry]
  · rw [DedupeRun.turn_of_processes hproc]
    apply Checkpoint.Leaps.cons
    · rw [hstep, hioctl]
      exact id
    · rw [hstep, hioctl]
      exact leaps_processing (s := { s with
        ctxt := s.answered kernel
        ioctls := s.ioctls + 1
        pc := .processing (.first DedupeReq.id s.ctxt.inProgress) 0 }) rfl rfl

/-- A turn from a visible state ends in one. -/
theorem turn_visible (kernel : Nat → KernelAnswer) (h : s.Inv added) (hvisible : s.Visible) :
    (s.turn kernel).Visible := by
  cases hpc : s.pc with
  | loopHead =>
    by_cases hqueued : s.ctxt.queued = []
    · rw [DedupeRun.turn_loopHead_nil hpc hqueued]
      exact trivial
    · obtain ⟨numQueued, hfill⟩ := populateDedupeRequest_eq h hpc
      rw [DedupeRun.turn_loopHead hpc hqueued hfill]
      exact trivial
  | ioctl =>
    rcases DedupeRun.ioctl_cases kernel hpc with hfail | ⟨hzero, hretry⟩ | hproc
    · rw [DedupeRun.turn_of_fails hpc hfail]
      exact trivial
    · rw [DedupeRun.turn_of_retries hpc hzero hretry]
      exact trivial
    · rw [DedupeRun.turn_of_processes hproc]
      exact trivial
  | populating cursor => simp [DedupeRun.Visible, hpc] at hvisible
  | processing cursor maxDeduped => simp [DedupeRun.Visible, hpc] at hvisible
  | returned ret => simpa [DedupeRun.turn, hpc] using hvisible
  | aborted => simpa [DedupeRun.turn, hpc] using hvisible

/-- A turn is what the machine does up to the next visible state. -/
theorem turn_accelerates (kernel : Nat → KernelAnswer) (added : List (Nat × FileId)) :
    Checkpoint.Accelerates (DedupeRun.step kernel) (DedupeRun.turn kernel) DedupeRun.Visible
      (DedupeRun.Inv added) where
  inv _ h := step_inv kernel h
  leaps s h hvisible := by
    cases hpc : s.pc with
    | loopHead => exact leaps_loopHead h hpc
    | ioctl => exact leaps_ioctl hpc
    | populating cursor => simp [DedupeRun.Visible, hpc] at hvisible
    | processing cursor maxDeduped => simp [DedupeRun.Visible, hpc] at hvisible
    | returned ret =>
      apply Checkpoint.Leaps.one
      simp [DedupeRun.step, DedupeRun.turn, hpc]
    | aborted =>
      apply Checkpoint.Leaps.one
      simp [DedupeRun.step, DedupeRun.turn, hpc]
  marked s h hvisible := turn_visible kernel h hvisible

/-- What a turn from a visible state can be. -/
theorem turn_cases (kernel : Nat → KernelAnswer) (h : s.Inv added) (hvisible : s.Visible) :
    (s.pc = .loopHead ∧ s.ctxt.queued = [] ∧ s.turn kernel = { s with pc := .returned 0 }) ∨
    (s.pc = .loopHead ∧ s.ctxt.queued ≠ []) ∨
    (s.pc = .ioctl ∧ (kernel s.ioctls).ret ≠ 0 ∧ s.turn kernel =
      { s with ioctls := s.ioctls + 1, pc := .returned (kernel s.ioctls).ret }) ∨
    (s.pc = .ioctl ∧ (kernel s.ioctls).ret = 0 ∧ s.Retries kernel) ∨
    s.Processes kernel ∨
    ∃ ret, s.pc = .returned ret ∧ s.turn kernel = s := by
  cases hpc : s.pc with
  | loopHead =>
    by_cases hqueued : s.ctxt.queued = []
    · exact .inl ⟨rfl, hqueued, DedupeRun.turn_loopHead_nil hpc hqueued⟩
    · exact .inr (.inl ⟨rfl, hqueued⟩)
  | ioctl =>
    rcases DedupeRun.ioctl_cases kernel hpc with hfail | ⟨hzero, hretry⟩ | hproc
    · exact .inr (.inr (.inl ⟨rfl, hfail, DedupeRun.turn_of_fails hpc hfail⟩))
    · exact .inr (.inr (.inr (.inl ⟨rfl, hzero, hretry⟩)))
    · exact .inr (.inr (.inr (.inr (.inl hproc))))
  | populating cursor => simp [DedupeRun.Visible, hpc] at hvisible
  | processing cursor maxDeduped => simp [DedupeRun.Visible, hpc] at hvisible
  | returned ret =>
    exact .inr (.inr (.inr (.inr (.inr ⟨ret, rfl, by simp only [DedupeRun.turn, hpc]⟩))))
  | aborted => exact absurd hpc h.not_aborted

end Leaps

end Duperemove
