-- SUMMARY: A kernel that serves all destinations alike dedupes the whole extent, in ranges that tile it.
import Duperemove.Dedupe.Ranges

/-!
# Uniform kernels

Kernels serve a long range piece by piece. When every destination gets the same
count, the source cursor, the length that is left, and the offset and the total of
each request stay in step, although they are updated in different places. So the
pieces follow each other without a gap up to the end of the extent.
-/

namespace Duperemove

/-- Ranges that follow each other from `off` on and cover `len` bytes. -/
def Tiles : Nat → Nat → List (Nat × Nat) → Prop
  | _, len, [] => len = 0
  | off, len, (o, c) :: rest =>
    o = off ∧ 0 < c ∧ c ≤ len ∧ Tiles (Word.wrap 64 (off + c)) (len - c) rest

/-- What an ioctl passes to the kernel, with the answer. -/
def DedupeRun.submission (kernel : Nat → KernelAnswer) (s : DedupeRun) :
    Option (DedupeRange × KernelAnswer) :=
  if s.pc = .ioctl then some (s.ctxt.same, kernel s.ioctls) else none

/-- A request with a length succeeds with one count for all its destinations. -/
def DedupeRun.Uniform (kernel : Nat → KernelAnswer) (s : DedupeRun) : Prop :=
  0 < s.ctxt.same.srcLength → (kernel s.ioctls).ret = 0 ∧
    ∃ count, 0 < count ∧ count ≤ s.ctxt.same.srcLength ∧
      ∀ i < s.ctxt.same.destCount, (kernel s.ioctls).replies i = ⟨count, 0⟩

/-- The cursor, the length and the requests are in step. -/
structure DedupeRun.InStep (loff elen : Nat) (s : DedupeRun) : Prop where
  unaligned : s.fsBlocksize = 0
  together : s.Together loff
  le : s.ctxt.len ≤ elen
  position : Word.sub 64 s.ctxt.ioctlFileOff loff = elen - s.ctxt.len
  busy : s.ctxt.queued ++ s.ctxt.inProgress ≠ [] → s.ctxt.len ≠ 0 ∧ s.ctxt.completed = []
  idle : s.ctxt.queued ++ s.ctxt.inProgress = [] →
    s.ctxt.len = 0 ∧ ∀ r ∈ s.ctxt.completed, r.reqStatus = 0 ∧ r.reqTotal = elen
  ret : ∀ ret, s.pc = .returned ret → ret = 0

section Step

variable {ds : List Extent} {loff elen : Nat} {kernel : Nat → KernelAnswer} {s : DedupeRun}

/-- The request of an ioctl has the length that is left, for all destinations. -/
theorem DedupeRun.InStep.submits (hstep : s.InStep loff elen) (h : s.Sound ds loff elen)
    (hpc : s.pc = .ioctl) :
    s.ctxt.same.srcLength = s.ctxt.len ∧ s.ctxt.len ≠ 0 ∧ s.ctxt.completed = [] := by
  have hsubmits := h.submits hpc
  refine ⟨?_, hstep.busy (List.append_ne_nil_of_right_ne_nil _ hsubmits.some)⟩
  rw [hsubmits.srcLength, hstep.unaligned]
  simp [alignedLength]

/-- The answer of a uniform kernel is taken apart, with one count for all. -/
theorem DedupeRun.InStep.answer (hstep : s.InStep loff elen) (h : s.Sound ds loff elen)
    (hpc : s.pc = .ioctl) (huniform : s.Uniform kernel) :
    s.Processes kernel ∧ ∃ count, 0 < count ∧ count ≤ s.ctxt.len ∧
      ((kernel s.ioctls).replies 0).bytesDeduped = count ∧
      (s.answered kernel).same.maxDeduped s.ctxt.inProgress = count ∧
      ∀ r ∈ s.ctxt.inProgress, ((s.answered kernel).same.reply r).bytesDeduped = count ∧
        ((s.answered kernel).same.reply r).status = 0 := by
  obtain ⟨hsrc, hlen, -⟩ := hstep.submits h hpc
  obtain ⟨hret, count, hpos, hle, hreplies⟩ := huniform (by omega)
  rw [hsrc] at hle
  have hlt := h.len_lt
  have hwrap : Word.wrap 64 count = count := Word.wrap_of_lt (by omega)
  have hall : ∀ r ∈ s.ctxt.inProgress, ((s.answered kernel).same.reply r).bytesDeduped = count ∧
      ((s.answered kernel).same.reply r).status = 0 := by
    intro r hr
    rw [h.reply_answered hr, hreplies _ (h.inv.indices.2 r hr)]
    exact ⟨hwrap, rfl⟩
  obtain ⟨r, rest, hcons⟩ := List.exists_cons_of_ne_nil (h.submits hpc).some
  have hr : r ∈ s.ctxt.inProgress := hcons ▸ List.mem_cons_self
  have hfirst : 0 < s.ctxt.same.destCount := by
    have hindex := h.inv.indices.2 r hr
    omega
  have hmax : (s.answered kernel).same.maxDeduped s.ctxt.inProgress = count :=
    maxDeduped_eq_of_forall (h.submits hpc).some fun r hr => (hall r hr).1
  refine ⟨⟨hpc, hret, ?_⟩, count, hpos, hle, by rw [hreplies 0 hfirst], hmax, hall⟩
  rintro ⟨hinval, -⟩
  have hroom : s.ctxt.same.destCount ≤ s.ctxt.same.info.length := by
    rw [h.room]
    exact Nat.le_trans h.inv.dests h.inv.room
  rw [DedupeRun.answered, answered_infoAt hfirst hroom, hreplies 0 hfirst] at hinval
  cases hinval

section Answer

variable (hstep : s.InStep loff elen) (h : s.Sound ds loff elen) (hproc : s.Processes kernel)
variable {count : Nat} (hle : count ≤ s.ctxt.len)
variable (hmax : (s.answered kernel).same.maxDeduped s.ctxt.inProgress = count)
variable (hall : ∀ r ∈ s.ctxt.inProgress, ((s.answered kernel).same.reply r).bytesDeduped = count ∧
  ((s.answered kernel).same.reply r).status = 0)

include hmax hle in
theorem answered_lenLeft : (s.answered kernel).lenLeft = s.ctxt.len - count := by
  have hleft : (s.answered kernel).lenLeft = Word.sub 64 s.ctxt.len count := by
    rw [← hmax]
    rfl
  rw [hleft, Word.sub_of_le hle]

include hstep hle hall in
theorem served_total (helen : elen < 2 ^ 64) {r : DedupeReq} (hr : r ∈ s.ctxt.inProgress) :
    ((s.answered kernel).same.served r).reqTotal = elen - (s.ctxt.len - count) := by
  have hreq : r.reqTotal = elen - s.ctxt.len :=
    (hstep.together r (List.mem_append_right _ hr)).trans hstep.position
  have hstart := hstep.le
  simp only [DedupeRange.served, DedupeReq.advance, (hall r hr).1, hreq]
  rw [Word.wrap_of_lt (by omega)]
  omega

include hstep hle hall in
/-- All requests stay while there is something left, and none stays behind the last
    piece. -/
theorem goesAround_iff (helen : elen < 2 ^ 64) {r : DedupeReq} (hr : r ∈ s.ctxt.inProgress) :
    (s.answered kernel).same.GoesAround elen r ↔ count < s.ctxt.len := by
  have hstart := hstep.le
  simp only [DedupeRange.GoesAround, (hall r hr).2, true_and,
    served_total hstep hle hall helen hr]
  omega

include hstep h hproc hle hmax hall in
/-- The answer of a uniform kernel keeps everything in step. -/
theorem processed_inStep (hloff : loff < 2 ^ 64) (helen : elen < 2 ^ 64) :
    (s.turn kernel).InStep loff elen := by
  obtain ⟨-, hlen, hnone⟩ := hstep.submits h hproc.pc
  obtain ⟨hhead, hsize, hprocessed⟩ := h.turn_processes hproc
  have hstart := hstep.le
  have hleft := answered_lenLeft hle hmax
  have htogether : (s.turn kernel).Together loff := by
    refine (together_turn_processes h hloff hstep.together hproc).2 fun _ r hr => ?_
    rw [hmax]
    exact (hall r (@mem_inProgress_of_requeued (s.answered kernel) r _ hr)).1
  have horig : (s.answered kernel).origLen = elen := h.origLen
  have hqueue : (s.turn kernel).ctxt.queued =
      (s.ctxt.inProgress.filter ((s.answered kernel).same.GoesAround elen ·)).map
        (s.answered kernel).same.served := by
    rw [hprocessed.queued, DedupeCtxt.requeued, if_neg fun hboth => hboth.1 hstep.unaligned, horig]
    rfl
  have hdone : (s.turn kernel).ctxt.completed =
      (s.ctxt.inProgress.filter (¬ (s.answered kernel).same.GoesAround elen ·)).map
        (s.answered kernel).same.settled := by
    have hcompleted : (s.answered kernel).completed = [] := hnone
    rw [hprocessed.completed hstep.unaligned, horig, hcompleted, List.nil_append]
    rfl
  have hgoes := @goesAround_iff loff elen kernel s hstep count hle hall helen
  refine ⟨hsize.trans hstep.unaligned, htogether, ?_, ?_, ?_, ?_,
    fun ret hret => by rw [hhead] at hret; cases hret⟩
  · simp only [hprocessed.len, hleft]
    omega
  · have hcursor : (s.turn kernel).ctxt.ioctlFileOff =
        Word.wrap 64 (s.ctxt.ioctlFileOff + count) := by
      rw [← hmax, hprocessed.ioctlFileOff]
      rfl
    simp only [hprocessed.len, hleft, hcursor]
    rw [Word.sub_wrap_left h.off_lt hloff, hstep.position, Word.wrap_of_lt (by omega)]
    omega
  · simp only [hprocessed.len, hleft, hprocessed.inProgress, List.append_nil, hqueue, hdone]
    intro hstay
    have hmore : count < s.ctxt.len := by
      by_contra hlast
      exact hstay (by simpa using fun r hr hgo => hlast ((hgoes hr).1 hgo))
    refine ⟨by omega, ?_⟩
    simpa using fun r hr => (hgoes hr).2 hmore
  · simp only [hprocessed.len, hleft, hprocessed.inProgress, List.append_nil, hqueue, hdone]
    intro hempty
    have hlast : ¬ count < s.ctxt.len := by
      intro hmore
      obtain ⟨r, rest, hcons⟩ := List.exists_cons_of_ne_nil (h.submits hproc.pc).some
      have hr : r ∈ s.ctxt.inProgress := hcons ▸ List.mem_cons_self
      have hnot : ∀ r ∈ s.ctxt.inProgress, ¬ (s.answered kernel).same.GoesAround elen r := by
        simpa using hempty
      exact hnot r hr ((hgoes hr).2 hmore)
    refine ⟨by omega, ?_⟩
    intro r hr
    obtain ⟨r', hr', rfl⟩ := List.mem_map.1 hr
    have hmem := (List.mem_filter.1 hr').1
    refine ⟨(hall r' hmem).2, ?_⟩
    have htotal := served_total hstep hle hall helen hmem
    simp only [DedupeRange.settled, htotal]
    omega

end Answer

/-- Filling a request keeps everything in step. -/
theorem filled_inStep (hstep : s.InStep loff elen) (h : s.Sound ds loff elen)
    (hpc : s.pc = .loopHead) (hqueued : s.ctxt.queued ≠ []) :
    (s.turn kernel).InStep loff elen := by
  obtain ⟨-, hlen, hoff, hprogress, hsubmits⟩ :=
    @DedupeRun.Sound.turn_loopHead ds loff elen kernel s h hpc hqueued
  obtain ⟨numQueued, hfill⟩ := populateDedupeRequest_eq h.inv hpc
  have htogether := (@together_turn_loopHead ds loff elen kernel s h hpc hqueued).2 hstep.together
  have hbusy := hstep.busy (List.append_ne_nil_of_left_ne_nil hqueued _)
  rw [DedupeRun.turn_loopHead hpc hqueued hfill] at htogether hsubmits ⊢
  refine ⟨hstep.unaligned, htogether, hstep.le, hstep.position, fun _ => hbusy, fun hnil => ?_,
    fun ret hret => by cases hret⟩
  exact absurd hnil (List.append_ne_nil_of_right_ne_nil _ hsubmits.some)

/-- Every turn with a uniform kernel keeps everything in step. -/
theorem turn_inStep (hstep : s.InStep loff elen) (h : s.Sound ds loff elen) (hloff : loff < 2 ^ 64)
    (helen : elen < 2 ^ 64) (huniform : s.pc = .ioctl → s.Uniform kernel) :
    (s.turn kernel).InStep loff elen := by
  by_cases hioctl : s.pc = .ioctl
  · obtain ⟨hproc, count, hpos, hle, -, hmax, hall⟩ := hstep.answer h hioctl (huniform hioctl)
    exact processed_inStep hstep h hproc hle hmax hall hloff helen
  · rcases turn_cases kernel h.inv h.visible with ⟨-, -, hturn⟩ | ⟨hpc, hqueued⟩ | ⟨hpc, -⟩ |
      ⟨hpc, -⟩ | hproc | ⟨ret, -, hturn⟩
    · rw [hturn]
      refine ⟨hstep.unaligned, hstep.together, hstep.le, hstep.position, hstep.busy, hstep.idle, ?_⟩
      intro ret hret
      cases hret
      rfl
    · exact filled_inStep hstep h hpc hqueued
    · exact absurd hpc hioctl
    · exact absurd hpc hioctl
    · exact absurd hproc.pc hioctl
    · rw [hturn]
      exact hstep

/-- The pieces of a run in turns tile what is left. -/
theorem exists_tiles (hstep : s.InStep loff elen) (h : s.Sound ds loff elen)
    (hpc : s.pc = .loopHead) (hloff : loff < 2 ^ 64) (helen : elen < 2 ^ 64)
    (huniform : ∀ s', DedupeRun.Reaches kernel s s' → s'.pc = .ioctl → s'.Uniform kernel) :
    ∃ n, ((DedupeRun.turn kernel)^[n] s).pc = .returned 0 ∧
      Tiles s.ctxt.ioctlFileOff s.ctxt.len
        ((Checkpoint.log (DedupeRun.turn kernel) (DedupeRun.submission kernel) n s).map
          fun p => (p.1.srcOffset, (p.2.replies 0).bytesDeduped)) := by
  have hnone : s.submission kernel = none := by
    simp [DedupeRun.submission, hpc]
  induction hlen : s.ctxt.len using Nat.strongRecOn generalizing s with
  | ind len ih =>
    subst hlen
    by_cases hqueued : s.ctxt.queued = []
    · have hprogress := h.inv.idle hpc
      refine ⟨1, ?_, ?_⟩
      · rw [Function.iterate_one, DedupeRun.turn_loopHead_nil hpc hqueued]
      · simp only [Checkpoint.log, hnone, Option.toList_none, List.append_nil, List.map_nil, Tiles]
        exact (hstep.idle (by rw [hqueued, hprogress, List.append_nil])).1
    · -- One request, its answer, and the rest of the run.
      obtain ⟨-, hkept, hoff, -, hsubmits⟩ :=
        @DedupeRun.Sound.turn_loopHead ds loff elen kernel s h hpc hqueued
      have hioctl := @turn_pc_of_loopHead ds loff elen kernel s h hpc hqueued
      have hsound := @turn_sound ds loff elen kernel s h
      have hfilled := @filled_inStep ds loff elen kernel s hstep h hpc hqueued
      have hreach := @reaches_turn ds loff elen kernel s s ⟨0, rfl⟩ h
      have hserves := huniform _ hreach hioctl
      obtain ⟨hproc, count, hpos, hle, hcount, hmax, hall⟩ :=
        hfilled.answer hsound hioctl hserves
      obtain ⟨hhead, -, hprocessed⟩ := hsound.turn_processes hproc
      have hlen : ((s.turn kernel).turn kernel).ctxt.len = s.ctxt.len - count := by
        rw [hprocessed.len, answered_lenLeft hle hmax, hkept]
      have hcursor : ((s.turn kernel).turn kernel).ctxt.ioctlFileOff =
          Word.wrap 64 (s.ctxt.ioctlFileOff + count) := by
        rw [hprocessed.ioctlFileOff, ← hoff, ← hmax]
        rfl
      rw [hkept] at hle
      obtain ⟨n, hret, htiles⟩ := ih (s.ctxt.len - count) (by omega)
        (turn_inStep hfilled hsound hloff helen fun _ => hserves) (turn_sound hsound) hhead
        (fun s' hs' => huniform s' (reaches_trans (reaches_turn hreach hsound) hs'))
        (by simp [DedupeRun.submission, hhead]) hlen
      refine ⟨n + 2, hret, ?_⟩
      have hsubmission : (s.turn kernel).submission kernel =
          some ((s.turn kernel).ctxt.same, kernel (s.turn kernel).ioctls) := by
        simp [DedupeRun.submission, hioctl]
      rw [hcursor] at htiles
      simp only [Checkpoint.log, hnone, hsubmission, Option.toList_none, Option.toList_some,
        List.nil_append, List.singleton_append, List.map_cons, Tiles, hcount]
      exact ⟨hsubmits.srcOffset.trans hoff, hpos, hle, htiles⟩

/-- A filled context starts in step. -/
theorem start_inStep {maxExtents : Nat} {file : FileId} {ioctls : Nat} (hne : ds ≠ [])
    (hpos : 0 < elen) :
    (DedupeRun.start (filledCtxt maxExtents loff elen file ds) 0 ioctls).InStep loff elen where
  unaligned := rfl
  together := start_together
  le := Nat.le_refl elen
  position := by simp [DedupeRun.start, filledCtxt, newDedupeCtxt, Word.sub]
  busy := fun _ => ⟨Nat.ne_of_gt hpos, rfl⟩
  idle := by
    intro hnil
    simp only [DedupeRun.start, filledCtxt, List.append_eq_nil_iff, List.mapIdx_eq_nil_iff] at hnil
    exact absurd hnil.1 hne
  ret := fun ret hret => by cases hret

/-- Every request of a run in step is for all destinations, at corresponding offsets,
    and reaches to the end of the extent. -/
theorem DedupeRun.InStep.request (hstep : s.InStep loff elen) (h : s.Sound ds loff elen)
    (hpc : s.pc = .ioctl) :
    s.ctxt.same.destCount = ds.length ∧ s.Corresponds ds loff ∧ 0 < s.ctxt.same.srcLength ∧
      s.ctxt.same.srcLength = elen - Word.sub 64 s.ctxt.same.srcOffset loff := by
  obtain ⟨hsrc, hlen, hnone⟩ := hstep.submits h hpc
  have hle := hstep.le
  have hcount : s.ctxt.inProgress.length = s.ctxt.same.destCount := by
    simpa using congrArg List.length (h.inv.submitted hpc).2
  have hlists := h.inv.length
  rw [h.queued hpc, hnone, hcount, addedIdents, List.length_mapIdx] at hlists
  refine ⟨by simpa using hlists, (h.corresponds_iff hpc).2 hstep.together, by omega, ?_⟩
  rw [(h.submits hpc).srcOffset, hstep.position, hsrc]
  omega

/-- A uniform kernel dedupes the extent completely. `dedupe_extents` returns 0, every
    request has status 0 and all bytes, and the ranges that the kernel reports tile the
    extent. Each request is for all destinations at the same relative offset, and
    reaches from there to the end of the extent. -/
theorem dedupeExtents_uniform {maxExtents : Nat} {file : FileId} (hmax : 0 < maxExtents)
    (hne : ds ≠ []) (hroom : ds.length ≤ destsFor maxExtents) (hoff : ∀ e ∈ ds, e.eLoff < 2 ^ 64)
    (hloff : loff < 2 ^ 64) (hpos : 0 < elen) (helen : elen < 2 ^ 64) {ioctls : Nat}
    (huniform : ∀ s, DedupeRun.Reaches kernel
        (.start (filledCtxt maxExtents loff elen file ds) 0 ioctls) s →
      s.pc = .ioctl → s.Uniform kernel) :
    (∃ n fuel s, (DedupeRun.step kernel)^[n]
        (.start (filledCtxt maxExtents loff elen file ds) 0 ioctls) = s ∧
      dedupeExtents kernel fuel (filledCtxt maxExtents loff elen file ds) 0 ioctls = some s ∧
      s.pc = .returned 0 ∧
      (s.ctxt.completed.map DedupeReq.ident).Perm (addedIdents ds) ∧
      (∀ r ∈ s.ctxt.completed, r.reqStatus = 0 ∧ r.reqTotal = elen) ∧
      Tiles loff elen ((Checkpoint.log (DedupeRun.step kernel) (DedupeRun.submission kernel) n
          (.start (filledCtxt maxExtents loff elen file ds) 0 ioctls)).map
        fun p => (p.1.srcOffset, (p.2.replies 0).bytesDeduped))) ∧
    ∀ s, DedupeRun.Reaches kernel
        (.start (filledCtxt maxExtents loff elen file ds) 0 ioctls) s → s.pc = .ioctl →
      s.ctxt.same.destCount = ds.length ∧ s.Corresponds ds loff ∧ 0 < s.ctxt.same.srcLength ∧
        s.ctxt.same.srcLength = elen - Word.sub 64 s.ctxt.same.srcOffset loff := by
  have hstart := @start_sound ds loff elen maxExtents file hmax hroom hoff hloff helen 0 ioctls
  have hinit := @start_inStep ds loff elen maxExtents file ioctls hne hpos
  have htiled := @exists_tiles ds loff elen kernel _ hinit hstart rfl hloff helen huniform
  have hcursor : (DedupeRun.start (filledCtxt maxExtents loff elen file ds) 0
      ioctls).ctxt.ioctlFileOff = loff := rfl
  have hwhole : (DedupeRun.start (filledCtxt maxExtents loff elen file ds) 0
      ioctls).ctxt.len = elen := rfl
  rw [hcursor, hwhole] at htiled
  unfold dedupeExtents
  generalize DedupeRun.start (filledCtxt maxExtents loff elen file ds) 0 ioctls = start
    at hstart hinit htiled huniform ⊢
  have haccel := turn_accelerates kernel (addedIdents ds)
  have hinStep : ∀ n, ((DedupeRun.step kernel)^[n] start).Visible →
      ((DedupeRun.step kernel)^[n] start).InStep loff elen := by
    intro n hvisible
    refine haccel.invariant hstart.inv hstart.visible hinit (fun m hm hstep => ?_) hvisible
    exact turn_inStep hstep (reaches_sound hstart hm) hloff helen (huniform _ ⟨m, rfl⟩)
  constructor
  · obtain ⟨m, hret, htiles⟩ := htiled
    have hobs : ∀ s : DedupeRun, ¬ s.Visible → s.submission kernel = none := by
      intro s hs
      exact if_neg fun hpc => hs (DedupeRun.visible_of_ioctl hpc)
    obtain ⟨n, hn, hlog⟩ := haccel.exists_step_eq_big hobs hstart.inv hstart.visible m
    rw [← hn] at hret
    rw [← hlog] at htiles
    obtain ⟨fuel, hrun⟩ := run_of_returned hret
    have hvisible : ((DedupeRun.step kernel)^[n] start).Visible := by
      simp [DedupeRun.Visible, hret]
    have hsound := reaches_sound hstart hvisible
    obtain ⟨hqueued, hprogress, hheld⟩ := hsound.inv.done hret
    refine ⟨n, fuel, _, rfl, hrun, hret, hheld, ?_, htiles⟩
    exact ((hinStep n hvisible).idle (by rw [hqueued, hprogress, List.append_nil])).2
  · rintro _ ⟨n, rfl⟩ hpc
    have hvisible := DedupeRun.visible_of_ioctl hpc
    exact (hinStep n hvisible).request (reaches_sound hstart hvisible) hpc

end Step

theorem uniform_pageKernel : ∀ s, DedupeRun.Reaches pageKernel twoPagesStart s → s.pc = .ioctl →
    s.Uniform pageKernel := by
  refine DedupeRun.forall_reaches (n := 17) (by decide) fun m hm hpc hlen => ?_
  refine ⟨rfl, 4096, by decide, ?_, fun _ _ => rfl⟩
  revert m
  decide

theorem dedupeExtents_uniform_twoPages :
    ∃ fuel s, dedupeExtents pageKernel fuel (filledCtxt 3 0 8192 1 [⟨2, 0⟩, ⟨3, 8192⟩]) 0 0 =
      some s ∧ s.pc = .returned 0 ∧ ∀ r ∈ s.ctxt.completed, r.reqStatus = 0 ∧ r.reqTotal = 8192 := by
  obtain ⟨⟨-, fuel, s, -, hrun, hret, -, hdone, -⟩, -⟩ := @dedupeExtents_uniform
    [⟨2, 0⟩, ⟨3, 8192⟩] 0 8192 pageKernel 3 1 (by decide) (by decide) (by decide) (by decide)
    (by decide) (by decide) (by decide) 0 uniform_pageKernel
  exact ⟨fuel, s, hrun, hret, hdone⟩

/-- The ranges that are submitted overlap: the second one is the end of the first. -/
theorem submitted_overlap_twoPages :
    (∀ s, DedupeRun.Reaches pageKernel twoPagesStart s → s.pc = .ioctl → s.Uniform pageKernel) ∧
    ((DedupeRun.step pageKernel)^[17] twoPagesStart).pc = .returned 0 ∧
    (Checkpoint.log (DedupeRun.step pageKernel) (DedupeRun.submission pageKernel) 17
      twoPagesStart).map (fun p => (p.1.srcOffset, p.1.srcLength)) = [(0, 8192), (4096, 4096)] ∧
    ¬ Tiles 0 8192 [(0, 8192), (4096, 4096)] := by
  refine ⟨uniform_pageKernel, by decide, by decide, ?_⟩
  simp [Tiles]

end Duperemove
