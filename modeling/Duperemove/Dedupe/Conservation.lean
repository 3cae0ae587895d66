-- SUMMARY: `dedupe_extents` loses no request and answers none twice, whatever the kernel replies.
import Mathlib.Data.List.Perm.Basic
import Duperemove.Dedupe.Context

/-!
# Conservation of requests

The three lists of a context hold every added request once, in every state that
`dedupe_extents` can reach. `RunInv` adds to this what each program point needs:
where the cursor of a traversal stands, and that the requests in progress are
numbered in the order of the list. `step_inv` keeps it, so it holds along every
run.
-/

namespace Duperemove

-- ---------------------------------------------------------------------------
-- Filled contexts
-- ---------------------------------------------------------------------------

/-- Calls of `add_extent_to_dedupe` in a row; `none` when one of them aborts. -/
def addExtentsToDedupe (ctxt : DedupeCtxt) (extents : List Extent) : Option DedupeCtxt :=
  extents.foldlM (fun ctxt e => (addExtentToDedupe ctxt e.eLoff e.eFile).map Prod.snd) ctxt

/-- The number of destinations of a context for a group of `n` extents. -/
def destsFor (n : Nat) : Nat := min n maxDedupesPerIoctl - 1

/-- A new context with the requests for `extents` in its queue. -/
def filledCtxt (maxExtents loff elen : Nat) (file : FileId) (extents : List Extent) : DedupeCtxt :=
  { newDedupeCtxt maxExtents loff elen file with
    queued := extents.mapIdx fun i e => newDedupeReq i e.eFile e.eLoff
    numQueued := extents.length }

section Fill

variable {maxExtents : Nat} {loff elen : Nat} {file : FileId}

theorem newDedupeCtxt_eq_filled :
    newDedupeCtxt maxExtents loff elen file = filledCtxt maxExtents loff elen file [] := rfl

theorem filledCtxt_maxQueable (hmax : 0 < maxExtents) (extents : List Extent) :
    (filledCtxt maxExtents loff elen file extents).maxQueable = destsFor maxExtents := by
  have hmin : (if maxExtents > maxDedupesPerIoctl then maxDedupesPerIoctl else maxExtents) =
      min maxExtents maxDedupesPerIoctl := by
    split <;> omega
  have hpos : 1 ≤ min maxExtents maxDedupesPerIoctl := Nat.le_min.2 ⟨hmax, by decide⟩
  simp only [filledCtxt, newDedupeCtxt, destsFor, hmin]
  exact Word.sub_of_le hpos

theorem destsFor_le (n : Nat) : destsFor n ≤ 119 := by
  unfold destsFor maxDedupesPerIoctl
  omega

/-- A context with room takes another extent. -/
theorem addExtentToDedupe_filled (hmax : 0 < maxExtents) {extents : List Extent}
    (hroom : extents.length < destsFor maxExtents) (e : Extent) :
    addExtentToDedupe (filledCtxt maxExtents loff elen file extents) e.eLoff e.eFile =
      some (destsFor maxExtents - (extents.length + 1),
        filledCtxt maxExtents loff elen file (extents ++ [e])) := by
  have hqueable := @filledCtxt_maxQueable maxExtents loff elen file hmax extents
  have hnum : (filledCtxt maxExtents loff elen file extents).numQueued = extents.length := rfl
  have hlen : (filledCtxt maxExtents loff elen file extents).requests.length = extents.length := by
    simp [filledCtxt, DedupeCtxt.requests, newDedupeCtxt]
  have hle := destsFor_le maxExtents
  have hwrap : Word.wrap 32 (extents.length + 1) = extents.length + 1 :=
    Word.wrap_of_lt (by omega)
  have hok : ¬ extents.length ≥ destsFor maxExtents := by omega
  have hqueue : (filledCtxt maxExtents loff elen file (extents ++ [e])).queued =
      (filledCtxt maxExtents loff elen file extents).queued ++
        [newDedupeReq extents.length e.eFile e.eLoff] := by
    simp [filledCtxt, List.mapIdx_append]
  have hfilled : filledCtxt maxExtents loff elen file (extents ++ [e]) =
      { filledCtxt maxExtents loff elen file extents with
        queued := (filledCtxt maxExtents loff elen file (extents ++ [e])).queued
        numQueued := extents.length + 1 } := by
    simp [filledCtxt]
  rw [hfilled, hqueue, addExtentToDedupe, hqueable, hnum, if_neg hok, hwrap, hlen, ← hqueable]

/-- A context takes as many extents as it has room for. -/
theorem addExtentsToDedupe_filled (hmax : 0 < maxExtents) (before : List Extent)
    {extents : List Extent}
    (hroom : (before ++ extents).length ≤ destsFor maxExtents) :
    addExtentsToDedupe (filledCtxt maxExtents loff elen file before) extents =
      some (filledCtxt maxExtents loff elen file (before ++ extents)) := by
  induction extents generalizing before with
  | nil => simp [addExtentsToDedupe]
  | cons e extents ih =>
    simp only [List.length_append, List.length_cons] at hroom
    have hadd := @addExtentToDedupe_filled maxExtents loff elen file hmax before (by omega) e
    have hrest := ih (before ++ [e]) (by simp; omega)
    rw [List.append_assoc, List.singleton_append] at hrest
    rw [addExtentsToDedupe, List.foldlM_cons, hadd]
    exact hrest

end Fill

-- ---------------------------------------------------------------------------
-- The invariant
-- ---------------------------------------------------------------------------

/-- A request by its identity: its address and its file. -/
def DedupeReq.ident (r : DedupeReq) : Nat × FileId := (r.id, r.reqFile)

/-- The requests in progress carry consecutive indices that end with the last
    destination. -/
def DedupeCtxt.Numbered (ctxt : DedupeCtxt) : Prop :=
  ∃ j, ctxt.inProgress.map DedupeReq.reqIdx = (List.range ctxt.same.destCount).drop j

/-- What holds at each program point. -/
def DedupeRun.AtPc (s : DedupeRun) : Prop :=
  match s.pc with
  | .loopHead => s.ctxt.inProgress = []
  | .populating cursor =>
    cursor = .first DedupeReq.id s.ctxt.queued ∧
      s.ctxt.inProgress.map DedupeReq.reqIdx = List.range s.ctxt.same.destCount
  | .ioctl =>
    s.ctxt.queued = [] ∧
      s.ctxt.inProgress.map DedupeReq.reqIdx = List.range s.ctxt.same.destCount
  | .processing cursor _ =>
    cursor = .first DedupeReq.id s.ctxt.inProgress ∧ s.ctxt.Numbered
  | .returned ret => s.ctxt.Numbered ∧ (ret = 0 → s.ctxt.queued = [] ∧ s.ctxt.inProgress = [])
  | .aborted => False

/-- The invariant of `dedupe_extents` on a context that was filled with
    `added`. -/
structure DedupeRun.Inv (added : List (Nat × FileId)) (s : DedupeRun) : Prop where
  held : (s.ctxt.requests.map DedupeReq.ident).Perm added
  room : added.length ≤ s.ctxt.maxQueable
  small : s.ctxt.maxQueable ≤ 119
  dests : s.ctxt.same.destCount ≤ added.length
  atPc : s.AtPc

section Step

variable {added : List (Nat × FileId)} {s : DedupeRun}

/-- The lists together have as many elements as were added. -/
theorem DedupeRun.Inv.length (h : s.Inv added) :
    s.ctxt.queued.length + s.ctxt.inProgress.length + s.ctxt.completed.length = added.length := by
  have hlen := h.held.length_eq
  simp only [DedupeCtxt.requests, List.length_map, List.length_append] at hlen
  exact hlen

/-- Nothing is in progress at the loop's head. -/
theorem DedupeRun.Inv.idle (h : s.Inv added) (hpc : s.pc = .loopHead) :
    s.ctxt.inProgress = [] := by
  have hat := h.atPc
  simpa only [DedupeRun.AtPc, hpc] using hat

/-- An ioctl is for all that was queued. -/
theorem DedupeRun.Inv.submitted (h : s.Inv added) (hpc : s.pc = .ioctl) :
    s.ctxt.queued = [] ∧
      s.ctxt.inProgress.map DedupeReq.reqIdx = List.range s.ctxt.same.destCount := by
  have hat := h.atPc
  simpa only [DedupeRun.AtPc, hpc] using hat

theorem DedupeRun.Inv.not_aborted (h : s.Inv added) : s.pc ≠ .aborted := by
  intro habort
  have hat := h.atPc
  simp only [DedupeRun.AtPc, habort] at hat

/-- A run that returns 0 has completed everything. -/
theorem DedupeRun.Inv.done (h : s.Inv added) (hpc : s.pc = .returned 0) :
    s.ctxt.queued = [] ∧ s.ctxt.inProgress = [] ∧
      (s.ctxt.completed.map DedupeReq.ident).Perm added := by
  have hat := h.atPc
  simp only [DedupeRun.AtPc, hpc, true_imp_iff] at hat
  obtain ⟨-, hqueued, hprogress⟩ := hat
  have hheld := h.held
  rw [DedupeCtxt.requests, hqueued, hprogress, List.append_nil, List.nil_append] at hheld
  exact ⟨hqueued, hprogress, hheld⟩

@[simp] theorem populateStart_destCount (fsBlocksize : Nat) (ctxt : DedupeCtxt) :
    (populateStart fsBlocksize ctxt).same.destCount = 0 := rfl

@[simp] theorem populateStart_inProgress (fsBlocksize : Nat) (ctxt : DedupeCtxt) :
    (populateStart fsBlocksize ctxt).inProgress = ctxt.inProgress := rfl

theorem stepLoopHead_inv (h : s.Inv added) (hpc : s.pc = .loopHead) :
    s.stepLoopHead.Inv added := by
  have hnone := h.idle hpc
  unfold DedupeRun.stepLoopHead
  split
  case isTrue hempty =>
    refine ⟨h.held, h.room, h.small, h.dests, ?_⟩
    exact ⟨⟨s.ctxt.same.destCount, by simp [hnone]⟩, fun _ => ⟨hempty, hnone⟩⟩
  case isFalse hqueued =>
    refine ⟨h.held, h.room, h.small, ?_, ?_⟩
    · rw [populateStart_destCount]
      exact Nat.zero_le _
    · refine ⟨rfl, ?_⟩
      rw [populateStart_destCount, populateStart_inProgress, hnone]
      rfl

theorem stepPopulating_inv (h : s.Inv added) {cursor : SafeList.Cursor Nat}
    (hpc : s.pc = .populating cursor) : (s.stepPopulating cursor).Inv added := by
  obtain ⟨rfl, hidx⟩ : cursor = .first DedupeReq.id s.ctxt.queued ∧
      s.ctxt.inProgress.map DedupeReq.reqIdx = List.range s.ctxt.same.destCount := by
    have := h.atPc
    simpa only [DedupeRun.AtPc, hpc] using this
  have hlen := h.length
  have hcount : s.ctxt.inProgress.length = s.ctxt.same.destCount := by
    have := congrArg List.length hidx
    simpa using this
  cases hq : s.ctxt.queued with
  | nil =>
    have hstep : s.stepPopulating (.first DedupeReq.id []) = { s with pc := .ioctl } := by
      simp [DedupeRun.stepPopulating]
    rw [hstep]
    exact ⟨h.held, h.room, h.small, h.dests, hq, hidx⟩
  | cons req rest =>
    rw [hq, List.length_cons] at hlen
    have hroom := h.room
    have hsmall := h.small
    -- Fewer destinations than requests, so the abort is not taken.
    have hok : ¬ s.ctxt.same.destCount ≥ s.ctxt.maxQueable := by omega
    have hwrap : Word.wrap 16 (s.ctxt.same.destCount + 1) = s.ctxt.same.destCount + 1 :=
      Word.wrap_of_lt (by omega)
    have hheld := h.held
    simp only [DedupeRun.stepPopulating, SafeList.first_cur, List.head?_cons, Option.map_some,
      Option.bind_some, hq, SafeList.at?_cons_self, populateOne, addDedupeRequest, hok, if_false,
      SafeList.unlink_cons_self, SafeList.advance_first, hwrap]
    refine ⟨?_, hroom, hsmall, by simp only; omega, rfl, ?_⟩
    · refine List.Perm.trans ?_ hheld
      simp only [DedupeCtxt.requests, hq]
      apply List.perm_iff_count.2
      intro a
      simp only [List.map_append, List.map_cons, List.map_nil, List.count_append, List.count_cons,
        List.count_nil, DedupeReq.ident, List.cons_append]
      omega
    · simp only [List.map_append, hidx, List.map_cons, List.map_nil, List.range_succ]

theorem stepIoctl_inv (kernel : Nat → KernelAnswer) (h : s.Inv added) (hpc : s.pc = .ioctl) :
    (s.stepIoctl kernel).Inv added := by
  obtain ⟨hqueued, hidx⟩ := h.submitted hpc
  unfold DedupeRun.stepIoctl
  simp only
  split
  case isTrue hfail =>
    exact ⟨h.held, h.room, h.small, h.dests, ⟨0, hidx⟩, fun hzero => absurd hzero hfail⟩
  case isFalse =>
    split
    · exact ⟨h.held, h.room, h.small, h.dests, hqueued, hidx⟩
    · exact ⟨h.held, h.room, h.small, h.dests, rfl, ⟨0, hidx⟩⟩

/-- The part behind the loop only puts queued requests in front of the completed
    ones. -/
theorem processEnd_lists (fsBlocksize : Nat) (ctxt : DedupeCtxt) (maxDeduped : Nat) :
    (processEnd fsBlocksize ctxt maxDeduped).inProgress = ctxt.inProgress ∧
      (processEnd fsBlocksize ctxt maxDeduped).same = ctxt.same ∧
      (processEnd fsBlocksize ctxt maxDeduped).maxQueable = ctxt.maxQueable ∧
      (processEnd fsBlocksize ctxt maxDeduped).queued ++
          (processEnd fsBlocksize ctxt maxDeduped).completed = ctxt.queued ++ ctxt.completed := by
  unfold processEnd
  simp only
  split <;> simp

theorem stepProcessing_inv (h : s.Inv added) {cursor : SafeList.Cursor Nat} {maxDeduped : Nat}
    (hpc : s.pc = .processing cursor maxDeduped) :
    (s.stepProcessing cursor maxDeduped).Inv added := by
  obtain ⟨rfl, j, hidx⟩ : cursor = .first DedupeReq.id s.ctxt.inProgress ∧ s.ctxt.Numbered := by
    have := h.atPc
    simpa only [DedupeRun.AtPc, hpc] using this
  have hheld := h.held
  cases hp : s.ctxt.inProgress with
  | nil =>
    obtain ⟨hprog, hsame, hmax, hlists⟩ := processEnd_lists s.fsBlocksize s.ctxt maxDeduped
    have hstep : s.stepProcessing (.first DedupeReq.id []) maxDeduped =
        { s with ctxt := processEnd s.fsBlocksize s.ctxt maxDeduped, pc := .loopHead } := by
      simp [DedupeRun.stepProcessing]
    rw [hstep]
    refine ⟨?_, by rw [hmax]; exact h.room, by rw [hmax]; exact h.small,
      by rw [hsame]; exact h.dests, hprog.trans hp⟩
    simp only [DedupeCtxt.requests, hprog, hp, List.append_nil, hlists] at hheld ⊢
    exact hheld
  | cons req rest =>
    rw [hp, List.map_cons] at hidx
    have hrest : rest.map DedupeReq.reqIdx = (List.range s.ctxt.same.destCount).drop (j + 1) := by
      rw [← List.drop_drop, ← hidx]
      rfl
    simp only [DedupeCtxt.requests, hp] at hheld
    simp only [DedupeRun.stepProcessing, SafeList.first_cur, List.head?_cons, Option.map_some,
      Option.bind_some, hp, SafeList.at?_cons_self, processOne, SafeList.unlink_cons_self]
    -- Wherever the request goes, it keeps its identity.
    have hmoved : ∀ (r : DedupeReq) {queued completed : List DedupeReq}, r.ident = req.ident →
        (queued ++ completed).Perm (s.ctxt.queued ++ r :: s.ctxt.completed) →
        ((queued ++ rest ++ completed).map DedupeReq.ident).Perm added := by
      intro r queued completed hident hperm
      refine List.Perm.trans ?_ hheld
      apply List.perm_iff_count.2
      intro a
      have hcount := (hperm.map DedupeReq.ident).count_eq a
      simp only [List.map_append, List.map_cons, List.count_append, List.count_cons,
        hident] at hcount ⊢
      omega
    have hcursor := @SafeList.advance_first _ _ DedupeReq.id _ req rest
    split
    · refine ⟨hmoved { req.advance (s.ctxt.same.infoAt req.reqIdx).bytesDeduped with
        reqStatus := (s.ctxt.same.infoAt req.reqIdx).status } rfl ?_, h.room, h.small, h.dests,
        hcursor, ⟨j + 1, hrest⟩⟩
      exact (List.perm_append_singleton _ _).append_left _
    · refine ⟨hmoved (req.advance (s.ctxt.same.infoAt req.reqIdx).bytesDeduped) rfl ?_, h.room,
        h.small, h.dests, hcursor, ⟨j + 1, hrest⟩⟩
      rw [List.append_assoc, List.singleton_append]

/-- Every transition keeps the invariant. -/
theorem step_inv (kernel : Nat → KernelAnswer) (h : s.Inv added) :
    (DedupeRun.step kernel s).Inv added := by
  unfold DedupeRun.step
  split
  case h_1 hpc => exact stepLoopHead_inv h hpc
  case h_2 cursor hpc => exact stepPopulating_inv h hpc
  case h_3 hpc => exact stepIoctl_inv kernel h hpc
  case h_4 cursor maxDeduped hpc => exact stepProcessing_inv h hpc
  case h_5 => exact h
  case h_6 => exact h

/-- The invariant holds along every run. -/
theorem reaches_inv {kernel : Nat → KernelAnswer} {s' : DedupeRun} (h : s.Inv added)
    (hreach : DedupeRun.Reaches kernel s s') : s'.Inv added := by
  obtain ⟨n, rfl⟩ := hreach
  induction n with
  | zero => exact h
  | succ n ih =>
    rw [Function.iterate_succ_apply']
    exact step_inv kernel ih

/-- The requests in progress have distinct indices of destinations. -/
theorem DedupeRun.Inv.indices (h : s.Inv added) :
    (s.ctxt.inProgress.map DedupeReq.reqIdx).Nodup ∧
      ∀ r ∈ s.ctxt.inProgress, r.reqIdx < s.ctxt.same.destCount := by
  have hnumbered : s.ctxt.Numbered := by
    have hpc := h.atPc
    unfold DedupeRun.AtPc at hpc
    split at hpc
    · exact ⟨s.ctxt.same.destCount, by simp [hpc]⟩
    · exact ⟨0, hpc.2⟩
    · exact ⟨0, hpc.2⟩
    · exact hpc.2
    · exact hpc.1
    · exact hpc.elim
  obtain ⟨j, hidx⟩ := hnumbered
  constructor
  · rw [hidx]
    exact (List.nodup_range).sublist (List.drop_sublist _ _)
  · intro r hr
    have hmem : r.reqIdx ∈ (List.range s.ctxt.same.destCount).drop j := by
      rw [← hidx]
      exact List.mem_map_of_mem hr
    exact List.mem_range.1 (List.mem_of_mem_drop hmem)

end Step

/-- The identities of the requests of a filled context. -/
def addedIdents (extents : List Extent) : List (Nat × FileId) :=
  extents.mapIdx fun i e => (i, e.eFile)

theorem completed_ne_nil {extents : List Extent} {reqs : List DedupeReq} (hne : extents ≠ [])
    (hheld : (reqs.map DedupeReq.ident).Perm (addedIdents extents)) : reqs ≠ [] := by
  rintro rfl
  have hlen := hheld.length_eq
  rw [List.map_nil, addedIdents, List.length_mapIdx] at hlen
  exact hne (List.length_eq_zero_iff.1 hlen.symm)

/-- A filled context starts with the invariant. -/
theorem start_inv {maxExtents loff elen : Nat} {file : FileId} {extents : List Extent}
    (hmax : 0 < maxExtents) (hroom : extents.length ≤ destsFor maxExtents)
    (fsBlocksize ioctls : Nat) :
    (DedupeRun.start (filledCtxt maxExtents loff elen file extents) fsBlocksize ioctls).Inv
      (addedIdents extents) where
  held := by
    have hident : (filledCtxt maxExtents loff elen file extents).requests.map DedupeReq.ident =
        addedIdents extents := by
      simp only [filledCtxt, newDedupeCtxt, DedupeCtxt.requests, List.append_nil, addedIdents,
        List.mapIdx_eq_zipIdx_map, List.map_map]
      rfl
    rw [DedupeRun.start, hident]
  room := by
    rw [DedupeRun.start, filledCtxt_maxQueable hmax, addedIdents, List.length_mapIdx]
    exact hroom
  small := by
    rw [DedupeRun.start, filledCtxt_maxQueable hmax]
    exact destsFor_le maxExtents
  dests := Nat.zero_le _
  atPc := rfl

-- ---------------------------------------------------------------------------
-- The results
-- ---------------------------------------------------------------------------

/-- The result of a completed request. -/
def DedupeReq.result (r : DedupeReq) : DedupeResult :=
  ⟨r.id, r.reqStatus, Word.sub 64 r.reqLoff r.reqTotal, r.reqTotal, r.reqFile⟩

/-- The variables of `process_dedupe_results` after it popped `req`. -/
def ResultsWalk.pop (w : ResultsWalk) (req : DedupeReq) (rest : List DedupeReq) : ResultsWalk where
  ctxt := { w.ctxt with completed := rest }
  kernBytes := Word.wrap 64 (w.kernBytes + req.reqTotal)
  popped := w.popped ++ [req.result]
  reported :=
    if isReported { w.ctxt with completed := rest } req.result then w.reported ++ [req.result]
    else w.reported

theorem resultsRound_cons {w : ResultsWalk} {req : DedupeReq} {rest : List DedupeReq}
    (hl : w.ctxt.completed = req :: rest) :
    resultsRound w =
      if rest.isEmpty then .leave (some (w.pop req rest)) else .again (w.pop req rest) := by
  simp only [resultsRound, popOneDedupeResult, hl]
  rfl

/-- Popping the results of a nonempty list passes each of them back once, in
    order. -/
theorem run_resultsRound {w : ResultsWalk} {req : DedupeReq} {rest : List DedupeReq}
    (hl : w.ctxt.completed = req :: rest) (fuel : Nat) (hfuel : rest.length < fuel) :
    ∃ w', Loop.run resultsRound fuel w = some (some w') ∧ w'.ctxt.completed = [] ∧
      w'.popped = w.popped ++ (req :: rest).map DedupeReq.result ∧
      w'.kernBytes = Word.wrap 64 (w.kernBytes + ((req :: rest).map DedupeReq.reqTotal).sum) := by
  induction rest generalizing w req fuel with
  | nil =>
    obtain ⟨fuel, rfl⟩ : ∃ n, fuel = n + 1 := ⟨fuel - 1, by omega⟩
    exact ⟨_, Loop.run_leave (resultsRound_cons hl) fuel, rfl, rfl, by simp [ResultsWalk.pop]⟩
  | cons req' rest ih =>
    rw [List.length_cons] at hfuel
    obtain ⟨fuel, rfl⟩ : ∃ n, fuel = n + 1 := ⟨fuel - 1, by omega⟩
    rw [Loop.run_again (resultsRound_cons hl)]
    obtain ⟨w', hrun, hempty, hpopped, hbytes⟩ :=
      ih (w := w.pop req (req' :: rest)) rfl fuel (by omega)
    refine ⟨w', hrun, hempty, ?_, ?_⟩
    · rw [hpopped, List.map_cons (l := req' :: rest)]
      simp [ResultsWalk.pop]
    · rw [hbytes, List.map_cons (l := req' :: rest), List.sum_cons, ← Nat.add_assoc]
      exact Word.wrap_wrap_add 64 _ _

/-- `process_dedupe_results` on a context with a completed request. -/
theorem processDedupeResults_eq {ctxt : DedupeCtxt} (hne : ctxt.completed ≠ []) (kernBytes : Nat) :
    ∃ w, processDedupeResults ctxt kernBytes = some (some w) ∧
      w.popped = ctxt.completed.map DedupeReq.result ∧
      w.kernBytes = Word.wrap 64 (kernBytes + (ctxt.completed.map DedupeReq.reqTotal).sum) := by
  obtain ⟨req, rest, hl⟩ := List.exists_cons_of_ne_nil hne
  obtain ⟨w, hrun, -, hpopped, hbytes⟩ := run_resultsRound (w := ⟨ctxt, kernBytes, [], []⟩) hl
    (ctxt.completed.length + 1) (by rw [hl, List.length_cons]; omega)
  refine ⟨w, hrun, ?_, by rw [hbytes, hl]⟩
  rw [hpopped, List.nil_append, hl]

/-- No request is lost or answered twice. Whatever the kernel answers, in every
    state that `dedupe_extents` reaches the lists hold each added request once,
    the requests in progress have distinct indices of destinations, and no abort
    was taken. When it returns 0, every request is completed, and its results are
    popped once each. -/
theorem dedupeExtents_conserves {maxExtents loff elen : Nat} {file : FileId}
    {extents : List Extent} (hmax : 0 < maxExtents) (hne : extents ≠ [])
    (hroom : extents.length ≤ (newDedupeCtxt maxExtents loff elen file).maxQueable) :
    ∃ ctxt, addExtentsToDedupe (newDedupeCtxt maxExtents loff elen file) extents = some ctxt ∧
      ∀ (kernel : Nat → KernelAnswer) (fsBlocksize ioctls : Nat) (s : DedupeRun),
        DedupeRun.Reaches kernel (.start ctxt fsBlocksize ioctls) s →
        (s.ctxt.requests.map DedupeReq.ident).Perm (addedIdents extents) ∧
        (s.ctxt.inProgress.map DedupeReq.reqIdx).Nodup ∧
        (∀ r ∈ s.ctxt.inProgress, r.reqIdx < s.ctxt.same.destCount) ∧
        s.ctxt.same.destCount ≤ s.ctxt.maxQueable ∧
        s.pc ≠ .aborted ∧
        (s.pc = .returned 0 →
          (s.ctxt.completed.map DedupeReq.ident).Perm (addedIdents extents) ∧
          ∀ kernBytes, ∃ w, processDedupeResults s.ctxt kernBytes = some (some w) ∧
            (w.popped.map fun r => (r.req, r.file)).Perm (addedIdents extents)) := by
  rw [newDedupeCtxt_eq_filled, filledCtxt_maxQueable hmax] at hroom
  refine ⟨_, addExtentsToDedupe_filled hmax [] hroom, ?_⟩
  intro kernel fsBlocksize ioctls s hreach
  have hinv := reaches_inv (start_inv hmax hroom fsBlocksize ioctls) hreach
  refine ⟨hinv.held, hinv.indices.1, hinv.indices.2, Nat.le_trans hinv.dests hinv.room,
    hinv.not_aborted, fun hret => ?_⟩
  obtain ⟨-, -, hheld⟩ := hinv.done hret
  refine ⟨hheld, fun kernBytes => ?_⟩
  obtain ⟨w, hrun, hpopped, -⟩ := processDedupeResults_eq (completed_ne_nil hne hheld) kernBytes
  refine ⟨w, hrun, ?_⟩
  rw [hpopped, List.map_map]
  exact hheld

/-- A kernel that dedupes the first page of every destination at once. -/
def pageKernel : Nat → KernelAnswer := fun _ => ⟨0, fun _ => ⟨4096, 0⟩, 4096⟩

/-- Two destinations of one page each. -/
def pageCtxt : DedupeCtxt := filledCtxt 3 0 4096 1 [⟨2, 0⟩, ⟨3, 8192⟩]

theorem dedupeExtents_conserves_pageCtxt :
    ∃ w, processDedupeResults
        ((DedupeRun.step pageKernel)^[9] (.start pageCtxt 0 0)).ctxt 0 = some (some w) ∧
      (w.popped.map fun r => (r.req, r.file)).Perm [(0, 2), (1, 3)] := by
  obtain ⟨ctxt, hfill, hruns⟩ := @dedupeExtents_conserves 3 0 4096 1 [⟨2, 0⟩, ⟨3, 8192⟩]
    (by decide) (by decide) (by decide)
  have hctxt : ctxt = pageCtxt := by
    have hpage : addExtentsToDedupe (newDedupeCtxt 3 0 4096 1) [⟨2, 0⟩, ⟨3, 8192⟩] =
        some pageCtxt := by decide
    exact Option.some.inj (hfill.symm.trans hpage)
  subst hctxt
  have hend := (hruns pageKernel 0 0 _ ⟨9, rfl⟩).2.2.2.2.2 (by decide)
  exact hend.2 0

end Duperemove
