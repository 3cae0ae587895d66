-- SUMMARY: The ranges that `dedupe_extents` submits: whether source and destinations correspond, whether they tile the extent, and whether the loop ends.
import Duperemove.Dedupe.Outcome
import Duperemove.Dedupe.Turns

/-!
# The ranges of the ioctls

All destinations of a context share one source cursor. It moves by the largest
count that the kernel reports, and each request moves by its own count. So the
ranges of an ioctl correspond as long as the requests that stay in the queue have
all been given the largest count. With a kernel that serves all destinations
alike they always do, and the counts tile the extent. With unequal counts the
cursor runs ahead of a request that stays behind, and when the fastest request is
done nothing is left to submit for the others.
-/

namespace Duperemove

/-! ## What is known at an ioctl -/

/-- The length that `set_aligned_same_length` submits for what is left. -/
def alignedLength (fsBlocksize len : Nat) : Nat :=
  if fsBlocksize ≠ 0 ∧ len > fsBlocksize then len &&& (2 ^ 32 - 1 - Word.sub 32 fsBlocksize 1)
  else len

theorem alignedLength_le (fsBlocksize len : Nat) : alignedLength fsBlocksize len ≤ len := by
  unfold alignedLength
  split
  · exact Nat.and_le_left
  · exact Nat.le_refl len

/-- The structure that is passed to the kernel describes the requests in progress,
    and there are some. -/
structure DedupeRun.Submits (s : DedupeRun) : Prop where
  some : s.ctxt.inProgress ≠ []
  srcOffset : s.ctxt.same.srcOffset = s.ctxt.ioctlFileOff
  srcLength : s.ctxt.same.srcLength = alignedLength s.fsBlocksize s.ctxt.len
  dests : ∀ r ∈ s.ctxt.inProgress, (s.ctxt.same.reply r).destFd = r.reqFile ∧
    (s.ctxt.same.reply r).destOffset = r.reqLoff

/-- What holds in every visible state of a run that started with the destinations
    `ds` and the source range at `loff` of length `elen`. -/
structure DedupeRun.Sound (ds : List Extent) (loff elen : Nat) (s : DedupeRun) : Prop where
  inv : s.Inv (addedIdents ds)
  visible : s.Visible
  serves : ∀ r ∈ s.ctxt.requests, r.Serves ds
  origFileOff : s.ctxt.origFileOff = loff
  origLen : s.ctxt.origLen = elen
  room : s.ctxt.same.info.length = s.ctxt.maxQueable
  len_lt : s.ctxt.len < 2 ^ 64
  off_lt : s.ctxt.ioctlFileOff < 2 ^ 64
  submits : s.pc = .ioctl → s.Submits

section Sound

variable {ds : List Extent} {loff elen : Nat} {kernel : Nat → KernelAnswer} {s : DedupeRun}

@[simp] theorem answered_length (same : DedupeRange) (answer : KernelAnswer) :
    (same.answered answer).info.length = same.info.length := by
  simp [DedupeRange.answered]

/-- The kernel writes the counts and the status, and leaves the destinations
    alone. -/
theorem answered_infoAt {same : DedupeRange} {i : Nat} (hi : i < same.destCount)
    (hroom : same.destCount ≤ same.info.length) (answer : KernelAnswer) :
    (same.answered answer).infoAt i =
      { same.infoAt i with
        bytesDeduped := Word.wrap 64 (answer.replies i).bytesDeduped
        status := (answer.replies i).status } := by
  have hlt : i < same.info.length := by omega
  simp [DedupeRange.answered, DedupeRange.infoAt, hlt, hi]

theorem DedupeRun.Sound.queued (h : s.Sound ds loff elen) (hpc : s.pc = .ioctl) :
    s.ctxt.queued = [] := (h.inv.submitted hpc).1

/-- The answer for a request in progress. -/
theorem DedupeRun.Sound.reply_answered (h : s.Sound ds loff elen) {r : DedupeReq}
    (hr : r ∈ s.ctxt.inProgress) :
    (s.answered kernel).same.reply r =
      { s.ctxt.same.reply r with
        bytesDeduped := Word.wrap 64 ((kernel s.ioctls).replies r.reqIdx).bytesDeduped
        status := ((kernel s.ioctls).replies r.reqIdx).status } := by
  apply answered_infoAt (h.inv.indices.2 r hr)
  rw [h.room]
  exact Nat.le_trans h.inv.dests h.inv.room

/-- The largest count of an answer is a word. -/
theorem DedupeRun.Sound.maxDeduped_lt (h : s.Sound ds loff elen) :
    (s.answered kernel).same.maxDeduped s.ctxt.inProgress < 2 ^ 64 := by
  have hle : (s.answered kernel).same.maxDeduped s.ctxt.inProgress ≤ 2 ^ 64 - 1 := by
    refine (maxDeduped_le_iff _ _ _).2 fun r hr => ?_
    rw [h.reply_answered hr]
    exact Nat.le_sub_one_of_lt (Word.wrap_lt _ _)
  omega

/-- A filled request describes the queue that it was filled from. -/
theorem DedupeRun.Sound.turn_loopHead (h : s.Sound ds loff elen) (hpc : s.pc = .loopHead)
    (hqueued : s.ctxt.queued ≠ []) :
    (s.turn kernel).ctxt.same.info.length = (s.turn kernel).ctxt.maxQueable ∧
      (s.turn kernel).ctxt.len = s.ctxt.len ∧
      (s.turn kernel).ctxt.ioctlFileOff = s.ctxt.ioctlFileOff ∧
      (s.turn kernel).ctxt.inProgress = numbered 0 s.ctxt.queued ∧
      (s.turn kernel).Submits := by
  obtain ⟨numQueued, hfill⟩ := populateDedupeRequest_eq h.inv hpc
  have hlen := h.inv.length
  have hroom := h.inv.room
  have hsmall := h.inv.small
  have hinfo : (populateStart s.fsBlocksize s.ctxt).same.info.length = s.ctxt.maxQueable := by
    rw [← h.room]
    simp [populateStart, setAlignedSameLength, DedupeRange.zeroed]
  have hcount := populateStart_destCount s.fsBlocksize s.ctxt
  obtain ⟨hoff, hsrc, hroom', -⟩ := @foldl_withRequest_fields
    (populateStart s.fsBlocksize s.ctxt).same s.ctxt.queued (by rw [hcount]; omega)
  obtain ⟨-, hdests⟩ := @foldl_withRequest_infoAt
    (populateStart s.fsBlocksize s.ctxt).same s.ctxt.queued (by rw [hcount]; omega)
    (by rw [hcount, hinfo]; omega)
  rw [DedupeRun.turn_loopHead hpc hqueued hfill]
  refine ⟨hroom'.trans hinfo, rfl, rfl, rfl, ?_, hoff, hsrc, hdests⟩
  intro hnil
  have hzero := congrArg List.length hnil
  rw [numbered_length, List.length_nil] at hzero
  exact hqueued (List.length_eq_zero_iff.1 hzero)

/-- A retry submits the same ranges with another length. -/
theorem DedupeRun.Sound.turn_retries (h : s.Sound ds loff elen) (hpc : s.pc = .ioctl)
    (hret : (kernel s.ioctls).ret = 0) (hretry : s.Retries kernel) :
    (s.turn kernel).Submits := by
  obtain ⟨hsome, hoff, -, hdests⟩ := h.submits hpc
  rw [DedupeRun.turn_of_retries hpc hret hretry]
  refine ⟨hsome, hoff, rfl, fun r hr => ?_⟩
  have hreply := @DedupeRun.Sound.reply_answered ds loff elen kernel s h r hr
  have hkept := hdests r hr
  change ((s.answered kernel).same.reply r).destFd = _ ∧
    ((s.answered kernel).same.reply r).destOffset = _
  rw [hreply]
  exact hkept

/-- An answer that is processed leads back to the loop's head. -/
theorem DedupeRun.Sound.turn_processes (h : s.Sound ds loff elen) (hproc : s.Processes kernel) :
    (s.turn kernel).pc = .loopHead ∧ (s.turn kernel).fsBlocksize = s.fsBlocksize ∧
      Processed s.fsBlocksize (s.answered kernel) (s.turn kernel).ctxt := by
  rw [DedupeRun.turn_of_processes hproc]
  exact ⟨rfl, rfl, processDedupes_processed s.fsBlocksize (h.queued hproc.pc)⟩

/-- Every turn keeps what is known. -/
theorem turn_sound (h : s.Sound ds loff elen) : (s.turn kernel).Sound ds loff elen := by
  have haccel := turn_accelerates kernel (addedIdents ds)
  have hsource : (s.turn kernel).ctxt.origFileOff = loff ∧ (s.turn kernel).ctxt.origLen = elen := by
    refine haccel.big_keeps (P := fun s => s.ctxt.origFileOff = loff ∧ s.ctxt.origLen = elen)
      (fun s hs => ?_) h.inv h.visible ⟨h.origFileOff, h.origLen⟩
    obtain ⟨hsrc, hlen⟩ := step_source kernel s
    exact ⟨(congrArg Extent.eLoff hsrc).trans hs.1, hlen.trans hs.2⟩
  have hserves : ∀ r ∈ (s.turn kernel).ctxt.requests, r.Serves ds :=
    haccel.big_keeps (P := fun s => ∀ r ∈ s.ctxt.requests, r.Serves ds)
      (fun _ => step_forall kernel (DedupeReq.serves_stable ds)) h.inv h.visible h.serves
  have hrest : (s.turn kernel).ctxt.same.info.length = (s.turn kernel).ctxt.maxQueable ∧
      (s.turn kernel).ctxt.len < 2 ^ 64 ∧ (s.turn kernel).ctxt.ioctlFileOff < 2 ^ 64 ∧
      ((s.turn kernel).pc = .ioctl → (s.turn kernel).Submits) := by
    rcases turn_cases kernel h.inv h.visible with ⟨-, -, hturn⟩ | ⟨hpc, hqueued⟩ | ⟨-, -, hturn⟩ |
      ⟨hpc, hzero, hretry⟩ | hproc | ⟨ret, -, hturn⟩
    · rw [hturn]
      exact ⟨h.room, h.len_lt, h.off_lt, fun hioctl => by cases hioctl⟩
    · obtain ⟨hroom, hlen, hoff, -, hsubmits⟩ :=
        @DedupeRun.Sound.turn_loopHead ds loff elen kernel s h hpc hqueued
      exact ⟨hroom, hlen ▸ h.len_lt, hoff ▸ h.off_lt, fun _ => hsubmits⟩
    · rw [hturn]
      exact ⟨h.room, h.len_lt, h.off_lt, fun hioctl => by cases hioctl⟩
    · have hsubmits := h.turn_retries hpc hzero hretry
      rw [DedupeRun.turn_of_retries hpc hzero hretry] at hsubmits ⊢
      refine ⟨?_, h.len_lt, h.off_lt, fun _ => hsubmits⟩
      exact (answered_length _ _).trans h.room
    · obtain ⟨hhead, -, hprocessed⟩ := h.turn_processes hproc
      refine ⟨?_, ?_, ?_, fun hioctl => by rw [hhead] at hioctl; cases hioctl⟩
      · rw [hprocessed.same, hprocessed.maxQueable]
        exact (answered_length _ _).trans h.room
      · rw [hprocessed.len]
        exact Word.sub_lt h.len_lt _
      · rw [hprocessed.ioctlFileOff]
        exact Word.wrap_lt _ _
    · rw [hturn]
      exact ⟨h.room, h.len_lt, h.off_lt, h.submits⟩
  obtain ⟨hroom, hlen, hoff, hsubmits⟩ := hrest
  exact ⟨haccel.inv_big h.inv h.visible, haccel.marked s h.inv h.visible, hserves, hsource.1,
    hsource.2, hroom, hlen, hoff, hsubmits⟩

/-- A filled context starts with what is known. -/
theorem start_sound {maxExtents : Nat} {file : FileId} (hmax : 0 < maxExtents)
    (hroom : ds.length ≤ destsFor maxExtents) (hoff : ∀ e ∈ ds, e.eLoff < 2 ^ 64)
    (hloff : loff < 2 ^ 64) (helen : elen < 2 ^ 64) (fsBlocksize ioctls : Nat) :
    (DedupeRun.start (filledCtxt maxExtents loff elen file ds) fsBlocksize ioctls).Sound
      ds loff elen where
  inv := start_inv hmax hroom fsBlocksize ioctls
  visible := trivial
  serves := filledCtxt_serves hoff
  origFileOff := rfl
  origLen := rfl
  room := by simp [DedupeRun.start, filledCtxt, newDedupeCtxt, DedupeRange.zeroed]
  len_lt := helen
  off_lt := hloff
  submits := fun hioctl => by cases hioctl

end Sound

/-! ## Corresponding ranges -/

/-- In an ioctl, each destination lies as far behind its original offset as the
    source behind its own. -/
def DedupeRun.Corresponds (ds : List Extent) (loff : Nat) (s : DedupeRun) : Prop :=
  ∀ r ∈ s.ctxt.inProgress, ∀ e, ds[r.id]? = some e →
    Word.sub 64 (s.ctxt.same.infoAt r.reqIdx).destOffset e.eLoff =
      Word.sub 64 s.ctxt.same.srcOffset loff

/-- Each destination that stays for another ioctl was given the largest count of
    this one. -/
def DedupeRun.ServesEvenly (kernel : Nat → KernelAnswer) (s : DedupeRun) : Prop :=
  s.Processes kernel → ∀ r ∈ (s.answered kernel).requeued s.fsBlocksize,
    ((s.answered kernel).same.reply r).bytesDeduped =
      (s.answered kernel).same.maxDeduped s.ctxt.inProgress

/-- The requests that are not completed are as far as the source cursor. -/
def DedupeRun.Together (loff : Nat) (s : DedupeRun) : Prop :=
  ∀ r ∈ s.ctxt.queued ++ s.ctxt.inProgress, r.reqTotal = Word.sub 64 s.ctxt.ioctlFileOff loff

section Corresponds

variable {ds : List Extent} {loff elen : Nat} {kernel : Nat → KernelAnswer} {s : DedupeRun}

theorem DedupeRun.Sound.corresponds_iff (h : s.Sound ds loff elen) (hpc : s.pc = .ioctl) :
    s.Corresponds ds loff ↔ s.Together loff := by
  have hqueued := h.queued hpc
  have hsubmits := h.submits hpc
  rw [DedupeRun.Together, hqueued, List.nil_append, DedupeRun.Corresponds, hsubmits.srcOffset]
  refine forall₂_congr fun r hr => ?_
  have hserves : r.Serves ds := h.serves r (by
    rw [DedupeCtxt.requests, hqueued, List.nil_append]
    exact List.mem_append_left _ hr)
  have hdest : (s.ctxt.same.infoAt r.reqIdx).destOffset = r.reqLoff := (hsubmits.dests r hr).2
  have hself : Word.sub 64 r.reqLoff r.dest.eLoff = r.reqTotal :=
    Word.sub_sub_self hserves.loff_lt hserves.total_lt
  rw [hdest]
  constructor
  · intro hall
    exact hself.symm.trans (hall r.dest hserves.added)
  · intro htotal e he
    rw [hserves.added] at he
    cases he
    exact hself.trans htotal

/-- The next look at the queue finds the requests together exactly if those that
    stay were served evenly. -/
theorem together_turn_processes (h : s.Sound ds loff elen) (hloff : loff < 2 ^ 64)
    (htogether : s.Together loff) (hproc : s.Processes kernel) :
    (s.turn kernel).Together loff ↔ s.ServesEvenly kernel := by
  obtain ⟨-, -, hprocessed⟩ := h.turn_processes hproc
  have hmax := @DedupeRun.Sound.maxDeduped_lt ds loff elen kernel s h
  have hcursor : Word.sub 64 (s.turn kernel).ctxt.ioctlFileOff loff =
      Word.wrap 64 (Word.sub 64 s.ctxt.ioctlFileOff loff +
        (s.answered kernel).same.maxDeduped s.ctxt.inProgress) := by
    rw [hprocessed.ioctlFileOff]
    exact Word.sub_wrap_left h.off_lt hloff _
  have hlists : (s.turn kernel).ctxt.queued ++ (s.turn kernel).ctxt.inProgress =
      ((s.answered kernel).requeued s.fsBlocksize).map (s.answered kernel).same.served := by
    rw [hprocessed.queued, hprocessed.inProgress, List.append_nil]
  simp only [DedupeRun.Together, hlists, hcursor, List.forall_mem_map, DedupeRun.ServesEvenly,
    hproc, true_imp_iff]
  refine forall₂_congr fun r hr => ?_
  have hmem : r ∈ s.ctxt.inProgress := @mem_inProgress_of_requeued (s.answered kernel) r _ hr
  have htotal : r.reqTotal = Word.sub 64 s.ctxt.ioctlFileOff loff :=
    htogether r (List.mem_append_right _ hmem)
  have hle : ((s.answered kernel).same.reply r).bytesDeduped ≤
      (s.answered kernel).same.maxDeduped s.ctxt.inProgress := reply_le_maxDeduped _ hmem
  simp only [DedupeRange.served, DedupeReq.advance, htotal]
  constructor
  · intro heq
    exact Word.wrap_add_left_cancel (by omega) hmax heq
  · intro heq
    rw [heq]

/-- Filling a request moves no one. -/
theorem together_turn_loopHead (h : s.Sound ds loff elen) (hpc : s.pc = .loopHead)
    (hqueued : s.ctxt.queued ≠ []) : (s.turn kernel).Together loff ↔ s.Together loff := by
  obtain ⟨-, -, hoff, hprogress, -⟩ :=
    @DedupeRun.Sound.turn_loopHead ds loff elen kernel s h hpc hqueued
  have hnone := h.inv.idle hpc
  have hempty : (s.turn kernel).ctxt.queued = [] := by
    obtain ⟨numQueued, hfill⟩ := populateDedupeRequest_eq h.inv hpc
    rw [DedupeRun.turn_loopHead hpc hqueued hfill]
  rw [DedupeRun.Together, DedupeRun.Together, hempty, hprogress, hoff, hnone, List.nil_append,
    List.append_nil]
  exact forall_mem_numbered (fun _ _ => Iff.rfl) 0 s.ctxt.queued

/-- A turn that does not take an answer apart keeps the requests together, and so
    does one that served them evenly. -/
theorem turn_together (h : s.Sound ds loff elen) (hloff : loff < 2 ^ 64)
    (heven : s.pc = .ioctl → s.ServesEvenly kernel) (htogether : s.Together loff) :
    (s.turn kernel).Together loff := by
  rcases turn_cases kernel h.inv h.visible with ⟨-, -, hturn⟩ | ⟨hpc, hqueued⟩ | ⟨-, -, hturn⟩ |
    ⟨hpc, hzero, hretry⟩ | hproc | ⟨ret, -, hturn⟩
  · rw [hturn]
    exact htogether
  · exact (together_turn_loopHead h hpc hqueued).2 htogether
  · rw [hturn]
    exact htogether
  · rw [DedupeRun.turn_of_retries hpc hzero hretry]
    exact htogether
  · exact (together_turn_processes h hloff htogether hproc).2 (heven hproc.pc)
  · rw [hturn]
    exact htogether

theorem start_together {maxExtents : Nat} {file : FileId} {fsBlocksize ioctls : Nat} :
    (DedupeRun.start (filledCtxt maxExtents loff elen file ds) fsBlocksize ioctls).Together
      loff := by
  intro r hr
  have hqueued : r ∈ ds.mapIdx fun i e => newDedupeReq i e.eFile e.eLoff := by
    simpa [DedupeRun.start, filledCtxt, newDedupeCtxt] using hr
  obtain ⟨i, hi, rfl⟩ := List.mem_mapIdx.1 hqueued
  have hzero : Word.sub 64 loff loff = 0 := by simp [Word.sub]
  exact hzero.symm

/-- The visible states of a run from a filled context are sound. -/
theorem reaches_sound {start : DedupeRun} (hstart : start.Sound ds loff elen) {n : Nat}
    (hvisible : ((DedupeRun.step kernel)^[n] start).Visible) :
    ((DedupeRun.step kernel)^[n] start).Sound ds loff elen :=
  (turn_accelerates kernel (addedIdents ds)).invariant hstart.inv hstart.visible hstart
    (fun _ _ h => turn_sound h) hvisible

theorem reaches_trans {s₁ s₂ s₃ : DedupeRun} (h₁ : DedupeRun.Reaches kernel s₁ s₂)
    (h₂ : DedupeRun.Reaches kernel s₂ s₃) : DedupeRun.Reaches kernel s₁ s₃ := by
  obtain ⟨m, rfl⟩ := h₁
  obtain ⟨n, rfl⟩ := h₂
  exact ⟨n + m, Function.iterate_add_apply _ _ _ _⟩

theorem reaches_turn {start : DedupeRun} (hreach : DedupeRun.Reaches kernel start s)
    (h : s.Sound ds loff elen) : DedupeRun.Reaches kernel start (s.turn kernel) := by
  obtain ⟨n, hn, -⟩ := (turn_accelerates kernel (addedIdents ds)).leaps _ h.inv h.visible
  exact reaches_trans hreach ⟨n + 1, hn⟩

/-- A run that stands still after `n` steps has no other states than those before. -/
theorem DedupeRun.forall_reaches {start : DedupeRun} {P : DedupeRun → Prop} {n : Nat}
    (hstill : DedupeRun.step kernel ((DedupeRun.step kernel)^[n] start) =
      (DedupeRun.step kernel)^[n] start)
    (h : ∀ m < n + 1, P ((DedupeRun.step kernel)^[m] start)) :
    ∀ s, DedupeRun.Reaches kernel start s → P s := by
  rintro _ ⟨m, rfl⟩
  by_cases hm : m < n + 1
  · exact h m hm
  · obtain ⟨k, rfl⟩ : ∃ k, m = k + n := ⟨m - n, by omega⟩
    rw [Function.iterate_add_apply, Function.iterate_fixed hstill]
    exact h n (Nat.lt_succ_self n)

theorem DedupeRun.visible_of_ioctl (hpc : s.pc = .ioctl) : s.Visible := by
  simp [DedupeRun.Visible, hpc]

/-- A filled request is submitted next. -/
theorem turn_pc_of_loopHead (h : s.Sound ds loff elen) (hpc : s.pc = .loopHead)
    (hqueued : s.ctxt.queued ≠ []) : (s.turn kernel).pc = .ioctl := by
  obtain ⟨numQueued, hfill⟩ := populateDedupeRequest_eq h.inv hpc
  rw [DedupeRun.turn_loopHead hpc hqueued hfill]

/-- Only corresponding ranges are compared, in every ioctl of a run, if and only if
    every ioctl gives its largest count to each destination that stays for another
    one. -/
theorem dedupeExtents_corresponds_iff {maxExtents : Nat} {file : FileId} (hmax : 0 < maxExtents)
    (hroom : ds.length ≤ destsFor maxExtents) (hoff : ∀ e ∈ ds, e.eLoff < 2 ^ 64)
    (hloff : loff < 2 ^ 64) (helen : elen < 2 ^ 64) (kernel : Nat → KernelAnswer)
    (fsBlocksize ioctls : Nat) :
    (∀ s, DedupeRun.Reaches kernel
        (.start (filledCtxt maxExtents loff elen file ds) fsBlocksize ioctls) s →
      s.pc = .ioctl → s.Corresponds ds loff) ↔
    ∀ s, DedupeRun.Reaches kernel
        (.start (filledCtxt maxExtents loff elen file ds) fsBlocksize ioctls) s →
      s.pc = .ioctl → s.ServesEvenly kernel := by
  have hstart := @start_sound ds loff elen maxExtents file hmax hroom hoff hloff helen fsBlocksize
    ioctls
  have htogether := @start_together ds loff elen maxExtents file fsBlocksize ioctls
  generalize DedupeRun.start (filledCtxt maxExtents loff elen file ds) fsBlocksize ioctls = start
    at hstart htogether ⊢
  constructor
  · rintro hlaw _ ⟨n, rfl⟩ hpc hproc
    have hsound := reaches_sound hstart (DedupeRun.visible_of_ioctl hpc)
    have hnow := (hsound.corresponds_iff hpc).1 (hlaw _ ⟨n, rfl⟩ hpc)
    refine (?_ : DedupeRun.ServesEvenly kernel _) hproc
    -- The requests that stay are submitted again, so the law speaks about them there.
    rw [← together_turn_processes hsound hloff hnow hproc]
    have hnext := @turn_sound ds loff elen kernel _ hsound
    obtain ⟨hhead, -, -⟩ := hsound.turn_processes hproc
    have hreach := reaches_turn ⟨n, rfl⟩ hsound
    by_cases hqueued : (((DedupeRun.step kernel)^[n] start).turn kernel).ctxt.queued = []
    · intro r hr
      rw [hqueued, hnext.inv.idle hhead, List.append_nil] at hr
      cases hr
    · rw [← @together_turn_loopHead ds loff elen kernel _ hnext hhead hqueued]
      have hioctl := @turn_pc_of_loopHead ds loff elen kernel _ hnext hhead hqueued
      exact ((turn_sound hnext).corresponds_iff hioctl).1
        (hlaw _ (reaches_turn hreach hnext) hioctl)
  · rintro heven _ ⟨n, rfl⟩ hpc
    have hnow : ((DedupeRun.step kernel)^[n] start).Together loff := by
      refine (turn_accelerates kernel (addedIdents ds)).invariant hstart.inv hstart.visible
        htogether ?_ (DedupeRun.visible_of_ioctl hpc)
      intro m hm
      exact turn_together (reaches_sound hstart hm) hloff (heven _ ⟨m, rfl⟩)
    exact ((reaches_sound hstart (DedupeRun.visible_of_ioctl hpc)).corresponds_iff hpc).2 hnow

end Corresponds

/-- Two pages for two destinations. -/
def twoPagesStart : DedupeRun := .start (filledCtxt 3 0 8192 1 [⟨2, 0⟩, ⟨3, 8192⟩]) 0 0

/-- The second ioctl of the two, for what is left, corresponds as well. -/
theorem dedupeExtents_corresponds_twoPages :
    ∃ s, DedupeRun.Reaches pageKernel twoPagesStart s ∧ s.pc = .ioctl ∧ s.ioctls = 1 ∧
      s.Corresponds [⟨2, 0⟩, ⟨3, 8192⟩] 0 := by
  have hlaw := (@dedupeExtents_corresponds_iff [⟨2, 0⟩, ⟨3, 8192⟩] 0 8192 3 1 (by decide)
    (by decide) (by decide) (by decide) (by decide) pageKernel 0 0).2 ?even
  case even =>
    refine DedupeRun.forall_reaches (n := 17) (by decide) fun m hm hpc hproc => ?_
    clear hproc
    revert m
    decide
  have hreach : DedupeRun.Reaches pageKernel twoPagesStart
      ((DedupeRun.step pageKernel)^[12] twoPagesStart) := ⟨12, rfl⟩
  have hpc : ((DedupeRun.step pageKernel)^[12] twoPagesStart).pc = .ioctl := by decide
  exact ⟨_, hreach, hpc, by decide, hlaw _ hreach hpc⟩

/-- A kernel that serves the second destination faster than the first, and fails from
    the second ioctl on. -/
def unevenKernel : Nat → KernelAnswer
  | 0 => ⟨0, fun i => if i = 0 then ⟨4096, 0⟩ else ⟨8192, 0⟩, 4096⟩
  | _ + 1 => ⟨0, fun _ => ⟨0, -5⟩, 4096⟩

/-- Three pages for two destinations. -/
def unevenStart : DedupeRun := .start (filledCtxt 3 0 12288 1 [⟨2, 0⟩, ⟨3, 8192⟩]) 0 0

/-- The second ioctl of `unevenKernel` compares the third page of the source with the
    second page of a destination, although no count exceeds what was submitted. -/
theorem not_corresponds_unevenKernel :
    (∀ s, DedupeRun.Reaches unevenKernel unevenStart s → s.pc = .ioctl →
      ∀ i < s.ctxt.same.destCount,
        ((unevenKernel s.ioctls).replies i).bytesDeduped ≤ s.ctxt.same.srcLength) ∧
    ∃ s, DedupeRun.Reaches unevenKernel unevenStart s ∧ s.pc = .ioctl ∧
      ¬ s.Corresponds [⟨2, 0⟩, ⟨3, 8192⟩] 0 := by
  constructor
  · refine DedupeRun.forall_reaches (n := 17) (by decide) ?_
    decide
  · refine ⟨_, ⟨12, rfl⟩, by decide, ?_⟩
    intro hlaw
    exact absurd (hlaw ⟨0, 2, 4096, 4096, 0, 0⟩ (by decide) ⟨2, 0⟩ rfl) (by decide)

/-! ## The end of the loop -/

/-- The length left is above the block size, but none of its bits is in the mask. -/
def MaskedOut (fsBlocksize len : Nat) : Prop :=
  fsBlocksize ≠ 0 ∧ fsBlocksize < len ∧ len &&& (2 ^ 32 - 1 - Word.sub 32 fsBlocksize 1) = 0

instance (fsBlocksize len : Nat) : Decidable (MaskedOut fsBlocksize len) :=
  inferInstanceAs (Decidable (_ ∧ _))

theorem alignedLength_eq_zero_iff (fsBlocksize len : Nat) :
    alignedLength fsBlocksize len = 0 ↔ len = 0 ∨ MaskedOut fsBlocksize len := by
  unfold alignedLength MaskedOut
  split
  case isTrue haligned =>
    obtain ⟨hsize, hlt⟩ := haligned
    have hne : len ≠ 0 := by omega
    simp only [hne, false_or, ne_eq, hsize, not_false_eq_true, true_and]
    exact ⟨fun hzero => ⟨hlt, hzero⟩, fun h => h.2⟩
  case isFalse hshort =>
    refine ⟨Or.inl, fun h => h.elim id fun hmasked => ?_⟩
    exact absurd ⟨hmasked.1, hmasked.2.1⟩ hshort

/-- A kernel that gets on: of a request with a length, each destination fails or gets
    at least one byte and at most that length. -/
def DedupeRun.GetsOn (kernel : Nat → KernelAnswer) (s : DedupeRun) : Prop :=
  0 < s.ctxt.same.srcLength → ∀ i < s.ctxt.same.destCount,
    ((kernel s.ioctls).replies i).status ≠ 0 ∨
      (1 ≤ ((kernel s.ioctls).replies i).bytesDeduped ∧
        ((kernel s.ioctls).replies i).bytesDeduped ≤ s.ctxt.same.srcLength)

/-- An ioctl that leaves something to submit to the destinations that stay. -/
structure DedupeRun.LeavesLength (kernel : Nat → KernelAnswer) (s : DedupeRun) : Prop where
  unmasked : ¬ MaskedOut s.fsBlocksize s.ctxt.len
  short : s.Processes kernel → (s.answered kernel).requeued s.fsBlocksize ≠ [] →
    (s.answered kernel).same.maxDeduped s.ctxt.inProgress ≠ s.ctxt.len

section Ends

variable {ds : List Extent} {loff elen : Nat} {kernel : Nat → KernelAnswer} {s : DedupeRun}

/-- Something is left whenever there is a destination to serve. -/
def DedupeRun.HasLength (s : DedupeRun) : Prop :=
  s.ctxt.queued ++ s.ctxt.inProgress ≠ [] → s.ctxt.len ≠ 0

theorem turn_hasLength (h : s.Sound ds loff elen) (hleaves : s.pc = .ioctl → s.LeavesLength kernel)
    (hlen : s.HasLength) : (s.turn kernel).HasLength := by
  rcases turn_cases kernel h.inv h.visible with ⟨-, -, hturn⟩ | ⟨hpc, hqueued⟩ | ⟨-, -, hturn⟩ |
    ⟨hpc, hzero, hretry⟩ | hproc | ⟨ret, -, hturn⟩
  · rw [hturn]
    exact hlen
  · obtain ⟨-, hkept, -⟩ := @DedupeRun.Sound.turn_loopHead ds loff elen kernel s h hpc hqueued
    intro _
    rw [hkept]
    exact hlen (List.append_ne_nil_of_left_ne_nil hqueued _)
  · rw [hturn]
    exact hlen
  · rw [DedupeRun.turn_of_retries hpc hzero hretry]
    exact hlen
  · obtain ⟨-, -, hprocessed⟩ := h.turn_processes hproc
    intro hstay
    rw [hprocessed.queued, hprocessed.inProgress, List.append_nil] at hstay
    have hshort := (hleaves hproc.pc).short hproc fun hnil => hstay (by rw [hnil, List.map_nil])
    rw [hprocessed.len]
    intro hzero
    exact hshort ((Word.sub_eq_zero_iff h.maxDeduped_lt).1 hzero).symm
  · rw [hturn]
    exact hlen

/-- What is left of a run: the destinations, the length for them, and how far the
    loop is. -/
def DedupeRun.rank (s : DedupeRun) : Nat :=
  match s.pc with
  | .returned _ => 0
  | .ioctl =>
    4 * (s.ctxt.inProgress.length * 2 ^ 64 + s.ctxt.len) + if s.fsBlocksize = 0 then 2 else 1
  | _ => 4 * (s.ctxt.queued.length * 2 ^ 64 + s.ctxt.len) + 3

/-- An answer takes a destination off, or it takes from the length. -/
theorem requeued_lt (h : s.Sound ds loff elen) (hproc : s.Processes kernel)
    (hgets : s.GetsOn kernel) (hsrc : s.ctxt.same.srcLength ≠ 0) :
    ((s.answered kernel).requeued s.fsBlocksize).length * 2 ^ 64 + (s.answered kernel).lenLeft <
      s.ctxt.inProgress.length * 2 ^ 64 + s.ctxt.len := by
  have hsubmits := h.submits hproc.pc
  have hleft : (s.answered kernel).lenLeft < 2 ^ 64 := Word.sub_lt h.len_lt _
  by_cases hall : ∀ r ∈ s.ctxt.inProgress, ((kernel s.ioctls).replies r.reqIdx).status = 0
  · -- Everyone is served, so the largest count is at least one and fits.
    have hbytes : ∀ r ∈ s.ctxt.inProgress,
        1 ≤ ((s.answered kernel).same.reply r).bytesDeduped ∧
          ((s.answered kernel).same.reply r).bytesDeduped ≤ s.ctxt.len := by
      intro r hr
      have hindex := h.inv.indices.2 r hr
      rcases hgets (Nat.pos_of_ne_zero hsrc) r.reqIdx hindex with hfail | ⟨hone, hle⟩
      · exact absurd (hall r hr) hfail
      · have hlen := alignedLength_le s.fsBlocksize s.ctxt.len
        have hlt := h.len_lt
        rw [hsubmits.srcLength] at hle
        rw [h.reply_answered hr, Word.wrap_of_lt (by omega)]
        exact ⟨hone, Nat.le_trans hle hlen⟩
    obtain ⟨r, rest, hcons⟩ := List.exists_cons_of_ne_nil hsubmits.some
    have hr : r ∈ s.ctxt.inProgress := hcons ▸ List.mem_cons_self
    have hmax : (s.answered kernel).same.maxDeduped s.ctxt.inProgress ≤ s.ctxt.len :=
      (maxDeduped_le_iff _ _ _).2 fun r hr => (hbytes r hr).2
    have hpos := Nat.le_trans (hbytes r hr).1
      (@reply_le_maxDeduped (s.answered kernel).same s.ctxt.inProgress r hr)
    have hless : (s.answered kernel).lenLeft =
        s.ctxt.len - (s.answered kernel).same.maxDeduped s.ctxt.inProgress :=
      Word.sub_of_le hmax
    have hcount : ((s.answered kernel).requeued s.fsBlocksize).length ≤
        s.ctxt.inProgress.length := requeued_length_le _ _
    have hmul := Nat.mul_le_mul_right (2 ^ 64) hcount
    omega
  · -- A destination that failed leaves the queue.
    simp only [not_forall] at hall
    obtain ⟨r, hr, hstatus⟩ := hall
    have hcount : ((s.answered kernel).requeued s.fsBlocksize).length <
        s.ctxt.inProgress.length := by
      refine @requeued_length_lt (s.answered kernel) r _ hr ?_
      rw [h.reply_answered hr]
      exact hstatus
    have hmul := Nat.mul_le_mul_right (2 ^ 64) (Nat.succ_le_of_lt hcount)
    rw [Nat.succ_mul] at hmul
    omega

/-- Every turn gets closer to the end. -/
theorem turn_rank (h : s.Sound ds loff elen)
    (hgets : s.pc = .ioctl → s.GetsOn kernel) (hsrc : s.pc = .ioctl → s.ctxt.same.srcLength ≠ 0)
    (hbsize : Word.wrap 32 (kernel s.ioctls).fBsize ≠ 0) :
    (∃ ret, s.pc = .returned ret) ∨ (s.turn kernel).rank < s.rank := by
  rcases turn_cases kernel h.inv h.visible with ⟨hpc, -, hturn⟩ | ⟨hpc, hqueued⟩ | ⟨hpc, -, hturn⟩ |
    ⟨hpc, hzero, hretry⟩ | hproc | ⟨ret, hpc, -⟩
  · refine .inr ?_
    simp only [DedupeRun.rank, hturn, hpc]
    omega
  · refine .inr ?_
    obtain ⟨-, hlen, -, hprogress, -⟩ :=
      @DedupeRun.Sound.turn_loopHead ds loff elen kernel s h hpc hqueued
    have hioctl := @turn_pc_of_loopHead ds loff elen kernel s h hpc hqueued
    simp only [DedupeRun.rank, hioctl, hpc, hlen, hprogress, numbered_length]
    split <;> omega
  · refine .inr ?_
    simp only [DedupeRun.rank, hturn, hpc]
    split <;> omega
  · refine .inr ?_
    rw [DedupeRun.turn_of_retries hpc hzero hretry]
    simp only [DedupeRun.rank, hpc, hbsize, if_false, hretry.2, if_true]
    exact Nat.lt_succ_self _
  · refine .inr ?_
    obtain ⟨hhead, -, hprocessed⟩ := h.turn_processes hproc
    have hlt := requeued_lt h hproc (hgets hproc.pc) (hsrc hproc.pc)
    simp only [DedupeRun.rank, hhead, hproc.pc, hprocessed.queued, hprocessed.len, List.length_map]
    omega
  · exact .inl ⟨ret, hpc⟩

/-- When one destination got all that was left and another one stays, the next
    request has no length. -/
theorem resubmits_nothing (h : s.Sound ds loff elen) (hproc : s.Processes kernel)
    (hstay : (s.answered kernel).requeued s.fsBlocksize ≠ [])
    (hwhole : (s.answered kernel).same.maxDeduped s.ctxt.inProgress = s.ctxt.len) :
    ((s.turn kernel).turn kernel).pc = .ioctl ∧
      ((s.turn kernel).turn kernel).ctxt.same.srcLength = 0 := by
  have hnext := @turn_sound ds loff elen kernel s h
  obtain ⟨hhead, -, hprocessed⟩ := h.turn_processes hproc
  have hqueued : (s.turn kernel).ctxt.queued ≠ [] := by
    rw [hprocessed.queued]
    exact fun hnil => hstay (List.map_eq_nil_iff.1 hnil)
  have hempty : (s.turn kernel).ctxt.len = 0 := by
    rw [hprocessed.len]
    exact (Word.sub_eq_zero_iff h.maxDeduped_lt).2 hwhole.symm
  obtain ⟨-, hlen, -, -, hsubmits⟩ :=
    @DedupeRun.Sound.turn_loopHead ds loff elen kernel _ hnext hhead hqueued
  refine ⟨turn_pc_of_loopHead hnext hhead hqueued, ?_⟩
  rw [hsubmits.srcLength, hlen, hempty]
  exact (alignedLength_eq_zero_iff _ _).2 (.inl rfl)

/-- A run that returns is a call of `dedupe_extents` that ends. -/
theorem run_of_returned {ret : Int} {n : Nat}
    (hret : ((DedupeRun.step kernel)^[n] s).pc = .returned ret) :
    ∃ fuel, Loop.run (DedupeRun.round kernel) fuel s = some ((DedupeRun.step kernel)^[n] s) := by
  induction n generalizing s with
  | zero =>
    refine ⟨1, Loop.run_leave ?_ 0⟩
    rw [Function.iterate_zero_apply] at hret ⊢
    simp only [DedupeRun.round, hret]
  | succ n ih =>
    rw [Function.iterate_succ_apply] at hret ⊢
    by_cases hround : DedupeRun.round kernel s = .again (DedupeRun.step kernel s)
    · obtain ⟨fuel, hrun⟩ := ih hret
      exact ⟨fuel + 1, (Loop.run_again hround fuel).trans hrun⟩
    · -- Only a run that is over does not go on, and then it stands still.
      have hleave : DedupeRun.round kernel s = .leave s ∧ DedupeRun.step kernel s = s := by
        cases hpc : s.pc <;> simp [DedupeRun.round, DedupeRun.step, hpc] at hround ⊢
      rw [hleave.2, Function.iterate_fixed hleave.2]
      exact ⟨1, Loop.run_leave hleave.1 0⟩

/-- The loop ends and submits no request without a length, if and only if no ioctl
    gives the whole length that is left to one destination while another one stays,
    and no length that is left is masked out. This is for a kernel that gets on, and
    block sizes that fit an `unsigned int`. -/
theorem dedupeExtents_ends_iff {maxExtents : Nat} {file : FileId} (hmax : 0 < maxExtents)
    (hroom : ds.length ≤ destsFor maxExtents) (hoff : ∀ e ∈ ds, e.eLoff < 2 ^ 64)
    (hloff : loff < 2 ^ 64) (hpos : 0 < elen) (helen : elen < 2 ^ 64)
    {kernel : Nat → KernelAnswer} (hbsize : ∀ n, 0 < (kernel n).fBsize ∧ (kernel n).fBsize < 2 ^ 32)
    {fsBlocksize ioctls : Nat}
    (hgets : ∀ s, DedupeRun.Reaches kernel
        (.start (filledCtxt maxExtents loff elen file ds) fsBlocksize ioctls) s →
      s.pc = .ioctl → s.GetsOn kernel) :
    ((∀ s, DedupeRun.Reaches kernel
        (.start (filledCtxt maxExtents loff elen file ds) fsBlocksize ioctls) s →
      s.pc = .ioctl → s.ctxt.same.srcLength ≠ 0) ∧
    ∃ fuel s ret, dedupeExtents kernel fuel (filledCtxt maxExtents loff elen file ds) fsBlocksize
      ioctls = some s ∧ s.pc = .returned ret) ↔
    ∀ s, DedupeRun.Reaches kernel
        (.start (filledCtxt maxExtents loff elen file ds) fsBlocksize ioctls) s →
      s.pc = .ioctl → s.LeavesLength kernel := by
  have hstart := @start_sound ds loff elen maxExtents file hmax hroom hoff hloff helen fsBlocksize
    ioctls
  have hlength : (DedupeRun.start (filledCtxt maxExtents loff elen file ds) fsBlocksize
      ioctls).HasLength := fun _ => Nat.ne_of_gt hpos
  unfold dedupeExtents
  generalize DedupeRun.start (filledCtxt maxExtents loff elen file ds) fsBlocksize ioctls = start
    at hstart hlength hgets ⊢
  have haccel := turn_accelerates kernel (addedIdents ds)
  constructor
  · rintro ⟨hsrc, -⟩ _ ⟨n, rfl⟩ hpc
    have hsound := reaches_sound hstart (DedupeRun.visible_of_ioctl hpc)
    constructor
    · intro hmasked
      refine hsrc _ ⟨n, rfl⟩ hpc ?_
      rw [(hsound.submits hpc).srcLength]
      exact (alignedLength_eq_zero_iff _ _).2 (.inr hmasked)
    · intro hproc hstay hwhole
      obtain ⟨hioctl, hzero⟩ := resubmits_nothing hsound hproc hstay hwhole
      exact hsrc _ (reaches_turn (reaches_turn ⟨n, rfl⟩ hsound) (turn_sound hsound)) hioctl hzero
  · intro hleaves
    have hhas : ∀ n, ((DedupeRun.step kernel)^[n] start).Visible →
        ((DedupeRun.step kernel)^[n] start).HasLength := by
      intro n hvisible
      refine haccel.invariant hstart.inv hstart.visible hlength ?_ hvisible
      intro m hm
      exact turn_hasLength (reaches_sound hstart hm) (hleaves _ ⟨m, rfl⟩)
    have hsrc : ∀ s, DedupeRun.Reaches kernel start s → s.pc = .ioctl →
        s.ctxt.same.srcLength ≠ 0 := by
      rintro _ ⟨n, rfl⟩ hpc hzero
      have hsound := reaches_sound hstart (DedupeRun.visible_of_ioctl hpc)
      have hsubmits := hsound.submits hpc
      rw [hsubmits.srcLength] at hzero
      rcases (alignedLength_eq_zero_iff _ _).1 hzero with hlen | hmasked
      · exact hhas n hsound.visible (List.append_ne_nil_of_right_ne_nil _ hsubmits.some) hlen
      · exact (hleaves _ ⟨n, rfl⟩ hpc).unmasked hmasked
    refine ⟨hsrc, ?_⟩
    obtain ⟨m, ret, hret⟩ : ∃ m, ∃ ret, ((DedupeRun.turn kernel)^[m] start).pc = .returned ret := by
      refine haccel.reaches_goal (G := fun s => ∃ ret, s.pc = .returned ret) DedupeRun.rank
        hstart.inv hstart.visible fun n hvisible => ?_
      refine turn_rank (reaches_sound hstart hvisible) (hgets _ ⟨n, rfl⟩) (hsrc _ ⟨n, rfl⟩) ?_
      rw [Word.wrap_of_lt (hbsize _).2]
      exact Nat.ne_of_gt (hbsize _).1
    obtain ⟨n, hn, -⟩ := haccel.exists_step_eq_big
      (fun _ _ => rfl : ∀ s, ¬ DedupeRun.Visible s → (none : Option Unit) = none) hstart.inv
      hstart.visible m
    rw [← hn] at hret
    obtain ⟨fuel, hrun⟩ := run_of_returned hret
    exact ⟨fuel, _, ret, hrun, hret⟩

end Ends

theorem dedupeExtents_ends_twoPages :
    (∀ s, DedupeRun.Reaches pageKernel twoPagesStart s → s.pc = .ioctl →
      s.ctxt.same.srcLength ≠ 0) ∧
    ∃ fuel s ret, dedupeExtents pageKernel fuel
      (filledCtxt 3 0 8192 1 [⟨2, 0⟩, ⟨3, 8192⟩]) 0 0 = some s ∧ s.pc = .returned ret := by
  refine (@dedupeExtents_ends_iff [⟨2, 0⟩, ⟨3, 8192⟩] 0 8192 3 1 (by decide) (by decide)
    (by decide) (by decide) (by decide) (by decide) pageKernel
    (fun _ => (by decide : 0 < 4096 ∧ 4096 < 2 ^ 32)) 0 0 ?_).2 ?_
  · refine DedupeRun.forall_reaches (n := 17) (by decide) ?_
    unfold DedupeRun.GetsOn
    decide
  · refine DedupeRun.forall_reaches (n := 17) (by decide) fun m hm hpc =>
      ⟨?_, fun hproc => ?_⟩
    · revert m
      decide
    · clear hproc
      revert m
      decide

/-- A kernel that serves the first destination faster than the second. -/
def headstartKernel : Nat → KernelAnswer
  | 0 => ⟨0, fun i => if i = 0 then ⟨8192, 0⟩ else ⟨4096, 0⟩, 4096⟩
  | _ + 1 => ⟨0, fun _ => ⟨0, -5⟩, 4096⟩

/-- The second request has no length, because the first destination is done and the
    second is not. -/
theorem submits_nothing_headstartKernel :
    (∀ s, DedupeRun.Reaches headstartKernel twoPagesStart s → s.pc = .ioctl →
      s.GetsOn headstartKernel) ∧
    ∃ s, DedupeRun.Reaches headstartKernel twoPagesStart s ∧ s.pc = .ioctl ∧
      s.ctxt.same.srcLength = 0 := by
  constructor
  · refine DedupeRun.forall_reaches (n := 15) (by decide) ?_
    unfold DedupeRun.GetsOn
    decide
  · exact ⟨_, ⟨11, rfl⟩, by decide, by decide⟩

end Duperemove
