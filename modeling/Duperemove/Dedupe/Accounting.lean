-- SUMMARY: The accounts of `dedupe_extents`: what is left, where the source stands, and what each request got.
import Mathlib.Algebra.Group.Action.Defs
import Mathlib.Algebra.Order.BigOperators.Group.List
import Mathlib.Algebra.Order.Ring.Nat
import Duperemove.Dedupe.Ranges

/-!
# Accounting

The remaining length shrinks by the largest count of each ioctl and each total grows
by the count of its own request. A request takes part in some of the ioctls only, so
its total is at most what the length has lost. While an answer is taken apart the
totals of the requests that were visited are ahead of the length, by the largest
count so far at most.
-/

namespace Duperemove

/-- No destination of an ioctl that succeeds reports more than was asked for. -/
def DedupeRun.ReportsWithin (kernel : Nat → KernelAnswer) (s : DedupeRun) : Prop :=
  (kernel s.ioctls).ret = 0 → ∀ i < s.ctxt.same.destCount,
    ((kernel s.ioctls).replies i).bytesDeduped ≤ s.ctxt.same.srcLength

/-- The request got at most what the length has lost. -/
def DedupeReq.Within (elen len : Nat) (r : DedupeReq) : Prop := r.reqTotal + len ≤ elen

/-- What each program point needs: that the request to submit fits, and how far the
    loop over an answer has got. -/
def DedupeRun.AccountedAt (elen : Nat) (s : DedupeRun) : Prop :=
  match s.pc with
  | .populating _ =>
    s.ctxt.same.srcLength ≤ s.ctxt.len ∧ ∀ r ∈ s.ctxt.requests, r.Within elen s.ctxt.len
  | .ioctl =>
    s.ctxt.same.srcLength ≤ s.ctxt.len ∧ ∀ r ∈ s.ctxt.requests, r.Within elen s.ctxt.len
  | .processing _ maxDeduped =>
    maxDeduped ≤ s.ctxt.len ∧
    (∀ r ∈ s.ctxt.inProgress, r.Within elen s.ctxt.len ∧
      (s.ctxt.same.infoAt r.reqIdx).bytesDeduped ≤ s.ctxt.len) ∧
    ∀ r ∈ s.ctxt.queued ++ s.ctxt.completed, r.Within elen (s.ctxt.len - maxDeduped)
  | _ => ∀ r ∈ s.ctxt.requests, r.Within elen s.ctxt.len

/-- The books of a run over a source range at `loff` of length `elen`. -/
structure DedupeRun.Accounted (loff elen : Nat) (s : DedupeRun) : Prop where
  origFileOff : s.ctxt.origFileOff = loff
  origLen : s.ctxt.origLen = elen
  off_lt : s.ctxt.ioctlFileOff < 2 ^ 64
  balance : s.ctxt.len + Word.sub 64 s.ctxt.ioctlFileOff loff = elen
  atPc : s.AccountedAt elen

section Step

variable {ds : List Extent} {loff elen : Nat} {kernel : Nat → KernelAnswer} {s : DedupeRun}

/-- The largest count so far never exceeds the length. -/
theorem DedupeRun.Accounted.maxDeduped_le (h : s.Accounted loff elen)
    {cursor : SafeList.Cursor Nat} {maxDeduped : Nat}
    (hpc : s.pc = .processing cursor maxDeduped) : maxDeduped ≤ s.ctxt.len := by
  have hat := h.atPc
  simp only [DedupeRun.AccountedAt, hpc] at hat
  exact hat.1

theorem DedupeReq.Within.mono {len len' : Nat} {r : DedupeReq} (h : r.Within elen len)
    (hle : len' ≤ len) : r.Within elen len' := Nat.le_trans (Nat.add_le_add_left hle _) h

/-- No request has more than the whole length. -/
theorem DedupeRun.Accounted.total_le (h : s.Accounted loff elen) {r : DedupeReq}
    (hr : r ∈ s.ctxt.requests) : r.reqTotal ≤ elen := by
  have hat := h.atPc
  have hwithin : ∃ len, r.Within elen len := by
    unfold DedupeRun.AccountedAt at hat
    split at hat
    · exact ⟨_, hat.2 r hr⟩
    · exact ⟨_, hat.2 r hr⟩
    · obtain ⟨-, hprogress, hrest⟩ := hat
      simp only [DedupeCtxt.requests, List.mem_append] at hr
      rcases hr with (hr | hr) | hr
      · exact ⟨_, hrest r (List.mem_append_left _ hr)⟩
      · exact ⟨_, (hprogress r hr).1⟩
      · exact ⟨_, hrest r (List.mem_append_right _ hr)⟩
    · exact ⟨_, hat r hr⟩
  obtain ⟨len, hlen⟩ := hwithin
  exact Nat.le_trans (Nat.le_add_right _ len) hlen

theorem stepLoopHead_accounted (h : s.Accounted loff elen) (hpc : s.pc = .loopHead) :
    s.stepLoopHead.Accounted loff elen := by
  have hat := h.atPc
  simp only [DedupeRun.AccountedAt, hpc] at hat
  unfold DedupeRun.stepLoopHead
  split
  · exact ⟨h.origFileOff, h.origLen, h.off_lt, h.balance, hat⟩
  · exact ⟨h.origFileOff, h.origLen, h.off_lt, h.balance, alignedLength_le _ _, hat⟩

/-- A request that is put into the ioctl's structure leaves the lengths alone. -/
theorem populateOne_lengths {ctxt ctxt' : DedupeCtxt} {req : DedupeReq}
    (h : populateOne ctxt req = some ctxt') :
    ctxt'.origFileOff = ctxt.origFileOff ∧ ctxt'.origLen = ctxt.origLen ∧
      ctxt'.ioctlFileOff = ctxt.ioctlFileOff ∧ ctxt'.len = ctxt.len ∧
      ctxt'.same.srcLength = ctxt.same.srcLength := by
  simp only [populateOne, addDedupeRequest] at h
  split at h
  · cases h
  · rename_i same req' hadd
    split at hadd
    · cases hadd
    · cases hadd
      cases h
      exact ⟨rfl, rfl, rfl, rfl, rfl⟩

theorem stepPopulating_accounted (h : s.Accounted loff elen) {cursor : SafeList.Cursor Nat}
    (hpc : s.pc = .populating cursor) : (s.stepPopulating cursor).Accounted loff elen := by
  have hat := h.atPc
  simp only [DedupeRun.AccountedAt, hpc] at hat
  have hforall := stepPopulating_forall (fun _ _ h => h) hat.2 cursor
  unfold DedupeRun.stepPopulating at hforall ⊢
  split
  · exact ⟨h.origFileOff, h.origLen, h.off_lt, h.balance, hat⟩
  · rename_i req hreq
    simp only [hreq] at hforall
    split
    · exact ⟨h.origFileOff, h.origLen, h.off_lt, h.balance, hat.2⟩
    · rename_i ctxt hone
      simp only [hone] at hforall
      obtain ⟨hoff, horig, hcursor, hlen, hsrc⟩ := populateOne_lengths hone
      refine ⟨hoff.trans h.origFileOff, horig.trans h.origLen, hcursor ▸ h.off_lt, ?_, ?_, ?_⟩
      · simp only [hlen, hcursor]
        exact h.balance
      · simp only [hlen, hsrc]
        exact hat.1
      · simp only [hlen]
        exact hforall

/-- The answer to an ioctl is taken apart from its first request on. -/
theorem stepIoctl_accounted (h : s.Accounted loff elen) (hsound : s.Sound ds loff elen)
    (hpc : s.pc = .ioctl) (hwithin : s.ReportsWithin kernel) :
    (s.stepIoctl kernel).Accounted loff elen := by
  have hat := h.atPc
  simp only [DedupeRun.AccountedAt, hpc] at hat
  rcases DedupeRun.stepIoctl_cases kernel s hpc with
    ⟨-, hstep⟩ | ⟨-, -, hstep⟩ | ⟨hproc, hstep⟩
  · rw [hstep]
    exact ⟨h.origFileOff, h.origLen, h.off_lt, h.balance, hat.2⟩
  · rw [hstep]
    exact ⟨h.origFileOff, h.origLen, h.off_lt, h.balance, alignedLength_le _ _, hat.2⟩
  · rw [hstep]
    obtain ⟨hqueued, hprogress, hcompleted⟩ := forall_requests.1 hat.2
    refine ⟨h.origFileOff, h.origLen, h.off_lt, h.balance, Nat.zero_le _, fun r hr => ?_, ?_⟩
    · have hbytes := hwithin hproc.ret r.reqIdx (hsound.inv.indices.2 r hr)
      have hreply : ((s.answered kernel).same.reply r).bytesDeduped ≤ s.ctxt.len := by
        rw [hsound.reply_answered hr]
        exact Nat.le_trans (Nat.mod_le _ _) (Nat.le_trans hbytes hat.1)
      exact ⟨hprogress r hr, hreply⟩
    · exact List.forall_mem_append.2 ⟨hqueued, hcompleted⟩

/-- Behind the loop the length and the source cursor move by the largest count. -/
theorem processEnd_accounted (h : s.Accounted loff elen) (hloff : loff < 2 ^ 64)
    (helen : elen < 2 ^ 64) {cursor : SafeList.Cursor Nat} {maxDeduped : Nat}
    (hpc : s.pc = .processing cursor maxDeduped) (hnone : s.ctxt.inProgress = []) :
    ({ s with ctxt := processEnd s.fsBlocksize s.ctxt maxDeduped, pc := .loopHead } :
      DedupeRun).Accounted loff elen := by
  have hat := h.atPc
  simp only [DedupeRun.AccountedAt, hpc] at hat
  obtain ⟨hmax, -, hrest⟩ := hat
  have hbalance := h.balance
  obtain ⟨hprogress, -, -, hlists⟩ := processEnd_lists s.fsBlocksize s.ctxt maxDeduped
  have hfields : (processEnd s.fsBlocksize s.ctxt maxDeduped).origFileOff = s.ctxt.origFileOff ∧
      (processEnd s.fsBlocksize s.ctxt maxDeduped).origLen = s.ctxt.origLen ∧
      (processEnd s.fsBlocksize s.ctxt maxDeduped).len = s.ctxt.len - maxDeduped ∧
      (processEnd s.fsBlocksize s.ctxt maxDeduped).ioctlFileOff =
        Word.wrap 64 (s.ctxt.ioctlFileOff + maxDeduped) := by
    unfold processEnd
    rw [Word.sub_of_le hmax]
    simp only
    split <;> exact ⟨rfl, rfl, rfl, rfl⟩
  obtain ⟨hoff, horig, hlen, hcursor⟩ := hfields
  refine ⟨hoff.trans h.origFileOff, horig.trans h.origLen, ?_, ?_, ?_⟩
  · simp only [hcursor]
    exact Word.wrap_lt _ _
  · simp only [hlen, hcursor]
    rw [Word.sub_wrap_left h.off_lt hloff, Word.wrap_of_lt (by omega)]
    omega
  · rw [← hlists] at hrest
    obtain ⟨hqueued, hcompleted⟩ := List.forall_mem_append.1 hrest
    simp only [DedupeRun.AccountedAt, hlen]
    refine forall_requests.2 ⟨hqueued, ?_, hcompleted⟩
    rw [hprogress, hnone]
    exact fun r hr => by cases hr

/-- A request that got its bytes is ahead by the largest count at most. -/
theorem advance_within {len maxDeduped bytes : Nat} {r : DedupeReq} (h : r.Within elen len)
    (helen : elen < 2 ^ 64) (hbytes : bytes ≤ len) :
    (r.advance bytes).Within elen (len - max maxDeduped bytes) := by
  unfold DedupeReq.Within at h ⊢
  simp only [DedupeReq.advance]
  rw [Word.wrap_of_lt (by omega)]
  omega

theorem processOne_accounted (h : s.Accounted loff elen) (helen : elen < 2 ^ 64)
    {cursor cursor' : SafeList.Cursor Nat} {maxDeduped : Nat} {req : DedupeReq}
    (hpc : s.pc = .processing cursor maxDeduped) (hreq : req ∈ s.ctxt.inProgress) :
    ({ s with
      ctxt := processOne s.ctxt req
      pc := .processing cursor'
        (max maxDeduped (s.ctxt.same.infoAt req.reqIdx).bytesDeduped) } :
      DedupeRun).Accounted loff elen := by
  have hat := h.atPc
  simp only [DedupeRun.AccountedAt, hpc] at hat
  obtain ⟨hmax, hprogress, hrest⟩ := hat
  obtain ⟨hreqwithin, hbytes⟩ := hprogress req hreq
  have hmoved := @advance_within _ _ maxDeduped _ _ hreqwithin helen hbytes
  have hless : s.ctxt.len - max maxDeduped (s.ctxt.same.infoAt req.reqIdx).bytesDeduped ≤
      s.ctxt.len - maxDeduped := Nat.sub_le_sub_left (Nat.le_max_left _ _) _
  obtain ⟨hqueued, hcompleted⟩ := List.forall_mem_append.1 fun r hr => (hrest r hr).mono hless
  have hleft := forall_unlink hprogress req.id
  have hbound : max maxDeduped (s.ctxt.same.infoAt req.reqIdx).bytesDeduped ≤ s.ctxt.len :=
    Nat.max_le.2 ⟨hmax, hbytes⟩
  simp only [processOne]
  split
  · refine ⟨h.origFileOff, h.origLen, h.off_lt, h.balance, hbound, hleft, ?_⟩
    refine List.forall_mem_append.2 ⟨hqueued, List.forall_mem_append.2 ⟨hcompleted, ?_⟩⟩
    exact List.forall_mem_singleton.2 hmoved
  · refine ⟨h.origFileOff, h.origLen, h.off_lt, h.balance, hbound, hleft, ?_⟩
    refine List.forall_mem_append.2 ⟨List.forall_mem_append.2 ⟨hqueued, ?_⟩, hcompleted⟩
    exact List.forall_mem_singleton.2 hmoved

theorem stepProcessing_accounted (h : s.Accounted loff elen) {added : List (Nat × FileId)}
    (hinv : s.Inv added) (hloff : loff < 2 ^ 64) (helen : elen < 2 ^ 64)
    {cursor : SafeList.Cursor Nat} {maxDeduped : Nat}
    (hpc : s.pc = .processing cursor maxDeduped) :
    (s.stepProcessing cursor maxDeduped).Accounted loff elen := by
  obtain ⟨rfl, -⟩ : cursor = .first DedupeReq.id s.ctxt.inProgress ∧ s.ctxt.Numbered := by
    have := hinv.atPc
    simpa only [DedupeRun.AtPc, hpc] using this
  unfold DedupeRun.stepProcessing
  split
  · rename_i hend
    have hnone : s.ctxt.inProgress = [] := by
      cases hp : s.ctxt.inProgress with
      | nil => rfl
      | cons req rest => simp [hp] at hend
    exact processEnd_accounted h hloff helen hpc hnone
  · rename_i req hreq
    exact processOne_accounted h helen hpc (of_cursor (fun r hr => hr) hreq)

/-- Every transition keeps the books, as long as the kernel reports no more than it
    was asked for. -/
theorem step_accounted (h : s.Accounted loff elen) {added : List (Nat × FileId)}
    (hinv : s.Inv added) (hloff : loff < 2 ^ 64) (helen : elen < 2 ^ 64)
    (hsound : s.pc = .ioctl → s.Sound ds loff elen)
    (hwithin : s.pc = .ioctl → s.ReportsWithin kernel) :
    (DedupeRun.step kernel s).Accounted loff elen := by
  unfold DedupeRun.step
  split
  case h_1 hpc => exact stepLoopHead_accounted h hpc
  case h_2 cursor hpc => exact stepPopulating_accounted h hpc
  case h_3 hpc => exact stepIoctl_accounted h (hsound hpc) hpc (hwithin hpc)
  case h_4 cursor maxDeduped hpc => exact stepProcessing_accounted h hinv hloff helen hpc
  case h_5 => exact h
  case h_6 => exact h

end Step

section Run

variable {ds : List Extent} {loff elen maxExtents : Nat} {file : FileId}
variable {kernel : Nat → KernelAnswer} {fsBlocksize ioctls : Nat}

theorem start_accounted (hloff : loff < 2 ^ 64) :
    (DedupeRun.start (filledCtxt maxExtents loff elen file ds) fsBlocksize ioctls).Accounted
      loff elen where
  origFileOff := rfl
  origLen := rfl
  off_lt := hloff
  balance := by simp [DedupeRun.start, filledCtxt, newDedupeCtxt, Word.sub]
  atPc := by
    intro r hr
    have hqueued : r ∈ ds.mapIdx fun i e => newDedupeReq i e.eFile e.eLoff := by
      simpa [DedupeRun.start, filledCtxt, newDedupeCtxt, DedupeCtxt.requests] using hr
    obtain ⟨i, hi, rfl⟩ := List.mem_mapIdx.1 hqueued
    exact Nat.le_of_eq (Nat.zero_add elen)

variable (hmax : 0 < maxExtents) (hroom : ds.length ≤ destsFor maxExtents)
variable (hoff : ∀ e ∈ ds, e.eLoff < 2 ^ 64) (hloff : loff < 2 ^ 64) (helen : elen < 2 ^ 64)
variable (hwithin : ∀ s, DedupeRun.Reaches kernel
    (.start (filledCtxt maxExtents loff elen file ds) fsBlocksize ioctls) s →
  s.pc = .ioctl → s.ReportsWithin kernel)
variable {s : DedupeRun} (hreach : DedupeRun.Reaches kernel
  (.start (filledCtxt maxExtents loff elen file ds) fsBlocksize ioctls) s)

include hmax hroom hoff hloff helen hwithin hreach in
/-- The books are kept along every run. -/
theorem reaches_accounted : s.Accounted loff elen := by
  have hsound : (DedupeRun.start (filledCtxt maxExtents loff elen file ds) fsBlocksize ioctls).Sound
      ds loff elen := start_sound hmax hroom hoff hloff helen fsBlocksize ioctls
  have hstart : (DedupeRun.start (filledCtxt maxExtents loff elen file ds) fsBlocksize
      ioctls).Accounted loff elen := start_accounted hloff
  generalize DedupeRun.start (filledCtxt maxExtents loff elen file ds) fsBlocksize ioctls = start
    at hwithin hreach hsound hstart
  obtain ⟨n, rfl⟩ := hreach
  induction n with
  | zero => exact hstart
  | succ n ih =>
    rw [Function.iterate_succ_apply']
    have hsent : ((DedupeRun.step kernel)^[n] start).pc = .ioctl →
        ((DedupeRun.step kernel)^[n] start).Sound ds loff elen :=
      fun hpc => reaches_sound hsound (DedupeRun.visible_of_ioctl hpc)
    exact step_accounted ih (reaches_inv hsound.inv ⟨n, rfl⟩) hloff helen hsent
      (hwithin _ ⟨n, rfl⟩)

include hoff hreach in
/-- In every state each request serves the destination it was added for. -/
theorem reaches_serves : ∀ r ∈ s.ctxt.requests, r.Serves ds := by
  obtain ⟨n, rfl⟩ := hreach
  induction n with
  | zero => exact filledCtxt_serves hoff
  | succ n ih =>
    rw [Function.iterate_succ_apply']
    exact step_forall kernel (DedupeReq.serves_stable ds) ih

include hmax hroom hoff hloff helen hwithin hreach in
/-- The accounts of `dedupe_extents` are right in every state, whatever is deduped by
    which ioctl: the length that is left and the way of the source cursor add up to the
    length of the extent, no subtraction wraps, and each request keeps its original
    offset and has at most the length of the extent. So the results carry the original
    offsets, and all of them together add at most that length for each request. -/
theorem dedupeExtents_accounts :
    s.ctxt.len + Word.sub 64 s.ctxt.ioctlFileOff s.ctxt.origFileOff = s.ctxt.origLen ∧
    (∀ cursor maxDeduped, s.pc = .processing cursor maxDeduped → maxDeduped ≤ s.ctxt.len) ∧
    (∀ r ∈ s.ctxt.requests, r.reqTotal ≤ s.ctxt.origLen ∧
      ∃ e, ds[r.id]? = some e ∧ Word.sub 64 r.reqLoff r.reqTotal = e.eLoff) ∧
    (s.ctxt.completed ≠ [] → ∀ kernBytes, ∃ w,
      processDedupeResults s.ctxt kernBytes = some (some w) ∧
      (∀ x ∈ w.popped, ∃ e, ds[x.req]? = some e ∧ x.off = e.eLoff ∧ x.file = e.eFile) ∧
      w.kernBytes = Word.wrap 64 (kernBytes + (w.popped.map DedupeResult.bytesDeduped).sum) ∧
      (w.popped.map DedupeResult.bytesDeduped).sum ≤ ds.length * s.ctxt.origLen) := by
  have hbooks := reaches_accounted hmax hroom hoff hloff helen hwithin hreach
  have hserves := reaches_serves hoff hreach
  have hinv := reaches_inv (start_inv hmax hroom fsBlocksize ioctls) hreach
  refine ⟨?_, fun _ _ hpc => hbooks.maxDeduped_le hpc, fun r hr => ?_, fun hne kernBytes => ?_⟩
  · rw [hbooks.origFileOff, hbooks.origLen]
    exact hbooks.balance
  · rw [hbooks.origLen]
    exact ⟨hbooks.total_le hr, r.dest, (hserves r hr).added, rfl⟩
  · have hcompleted : ∀ r ∈ s.ctxt.completed, r ∈ s.ctxt.requests := fun r hr =>
      List.mem_append_right _ hr
    obtain ⟨w, hrun, hpopped, hbytes⟩ := processDedupeResults_eq hne kernBytes
    have hsum : w.popped.map DedupeResult.bytesDeduped =
        s.ctxt.completed.map DedupeReq.reqTotal := by
      rw [hpopped, List.map_map]
      rfl
    refine ⟨w, hrun, fun x hx => ?_, by rw [hsum, hbytes], ?_⟩
    · rw [hpopped] at hx
      obtain ⟨r, hr, rfl⟩ := List.mem_map.1 hx
      exact ⟨r.dest, (hserves r (hcompleted r hr)).added, rfl, rfl⟩
    · have hcount : s.ctxt.completed.length ≤ ds.length := by
        have hlen := hinv.length
        rw [addedIdents, List.length_mapIdx] at hlen
        omega
      have hle := List.sum_le_card_nsmul (s.ctxt.completed.map DedupeReq.reqTotal) elen
        (List.forall_mem_map.2 fun r hr => hbooks.total_le (hcompleted r hr))
      rw [List.length_map, smul_eq_mul] at hle
      rw [hsum, hbooks.origLen]
      exact Nat.le_trans hle (Nat.mul_le_mul_right elen hcount)

end Run

/-- Two destinations that get different counts, and no more in the second ioctl. -/
theorem dedupeExtents_accounts_uneven :
    ∃ s, DedupeRun.Reaches unevenKernel unevenStart s ∧ s.pc = .returned 0 ∧
      s.ctxt.len + Word.sub 64 s.ctxt.ioctlFileOff s.ctxt.origFileOff = s.ctxt.origLen ∧
      ∃ w, processDedupeResults s.ctxt 0 = some (some w) ∧
        w.kernBytes = Word.wrap 64 (0 + (w.popped.map DedupeResult.bytesDeduped).sum) ∧
        (w.popped.map DedupeResult.bytesDeduped).sum ≤ 2 * s.ctxt.origLen := by
  have hwithin : ∀ s, DedupeRun.Reaches unevenKernel unevenStart s → s.pc = .ioctl →
      s.ReportsWithin unevenKernel := by
    refine DedupeRun.forall_reaches (n := 17) (by decide) ?_
    unfold DedupeRun.ReportsWithin
    decide
  have hreach : DedupeRun.Reaches unevenKernel unevenStart
      ((DedupeRun.step unevenKernel)^[17] unevenStart) := ⟨17, rfl⟩
  obtain ⟨hbalance, -, -, hresults⟩ := dedupeExtents_accounts
    (by decide : 0 < 3) (by decide) (by decide) (by decide) (by decide) hwithin hreach
  obtain ⟨w, hrun, -, hbytes, hsum⟩ := hresults (by decide) 0
  exact ⟨_, hreach, by decide, hbalance, w, hrun, hbytes, hsum⟩

end Duperemove
