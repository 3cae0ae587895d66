-- SUMMARY: When a call of `dedupe_extents` ends: at the ioctl whose answer leaves nothing to do.
import Duperemove.Dedupe.Coverage
import Duperemove.Dedupe.Ranges

/-!
# Calls that end

`dedupe_extents` goes round as long as a destination stays in the queue. So a call
ends exactly if it comes to an ioctl that fails, or whose answer gives every
destination an error or all of its length. A kernel that keeps answering zero bytes
and status zero never does that. What such an ioctl leaves, the block size and the
number of ioctls, is what the next call starts with.
-/

namespace Duperemove

/-- The answer to an ioctl is the last one of a call: the ioctl failed, or it is not tried
    again and no destination goes back to the queue. -/
def DedupeRun.Settles (kernel : Nat → KernelAnswer) (s : DedupeRun) : Prop :=
  s.pc = .ioctl ∧ ((kernel s.ioctls).ret ≠ 0 ∨
    ¬ s.Retries kernel ∧ (s.answered kernel).requeued s.fsBlocksize = [])

instance (kernel : Nat → KernelAnswer) (s : DedupeRun) : Decidable (s.Retries kernel) :=
  inferInstanceAs (Decidable (_ ∧ _))

instance (kernel : Nat → KernelAnswer) (s : DedupeRun) : Decidable (s.Settles kernel) :=
  inferInstanceAs (Decidable (_ ∧ (_ ∨ _ ∧ _)))

/-- A state behind the last ioctl of a run. -/
def DedupeRun.SettledFrom (kernel : Nat → KernelAnswer) (start s : DedupeRun) : Prop :=
  ∃ t, DedupeRun.Reaches kernel start t ∧ t.Settles kernel ∧ s.fsBlocksize = t.fsBlocksize ∧
    s.ioctls = t.ioctls + 1

section Settles

variable {kernel : Nat → KernelAnswer} {start s : DedupeRun} {added : List (Nat × FileId)}

/-- A visible state reaches the state of its next turn. -/
theorem reaches_of_turn (h : s.Inv added) (hvisible : s.Visible) :
    DedupeRun.Reaches kernel s (s.turn kernel) := by
  obtain ⟨n, hn, -⟩ := (turn_accelerates kernel added).leaps s h hvisible
  exact ⟨n + 1, hn⟩

/-- Behind an ioctl that settles everything the run returns. -/
theorem returns_of_settles (h : s.Inv added) (hsettles : s.Settles kernel) :
    ∃ r, DedupeRun.Reaches kernel s r ∧ (∃ ret, r.pc = .returned ret) ∧
      r.fsBlocksize = s.fsBlocksize ∧ r.ioctls = s.ioctls + 1 := by
  obtain ⟨hpc, hanswer⟩ := hsettles
  have hvisible := DedupeRun.visible_of_ioctl hpc
  have hreach : DedupeRun.Reaches kernel s (s.turn kernel) := reaches_of_turn h hvisible
  by_cases hret : (kernel s.ioctls).ret = 0
  · obtain ⟨haligned, hnone⟩ := hanswer.resolve_left fun hne => hne hret
    have hturn := DedupeRun.turn_of_processes ⟨hpc, hret, haligned⟩
    have hprocessed := processDedupes_processed s.fsBlocksize
      (show (s.answered kernel).queued = [] from (h.submitted hpc).1)
    have hhead : (s.turn kernel).pc = .loopHead := by rw [hturn]
    have hempty : (s.turn kernel).ctxt.queued = [] := by
      rw [hturn]
      simp only [hprocessed.queued, hnone, List.map_nil]
    have hinv : (s.turn kernel).Inv added :=
      (turn_accelerates kernel added).inv_big h hvisible
    have hlast : (s.turn kernel).turn kernel = { s.turn kernel with pc := .returned 0 } :=
      DedupeRun.turn_loopHead_nil hhead hempty
    have hreach' : DedupeRun.Reaches kernel (s.turn kernel) ((s.turn kernel).turn kernel) :=
      reaches_of_turn hinv ((turn_accelerates kernel added).marked s h hvisible)
    refine ⟨_, reaches_trans hreach hreach', ?_, ?_, ?_⟩
    · exact ⟨0, by rw [hlast]⟩
    · rw [hlast, hturn]
    · rw [hlast, hturn]
  · have hturn := DedupeRun.turn_of_fails hpc hret
    refine ⟨_, hreach, ?_, ?_, ?_⟩
    · exact ⟨_, by rw [hturn]⟩
    · rw [hturn]
    · rw [hturn]

/-- One turn: what is behind the last ioctl comes from it. -/
theorem turn_settledFrom (h : s.Inv added) (hvisible : s.Visible)
    (hreach : DedupeRun.Reaches kernel start s)
    (hs : (s.pc = .loopHead ∧ s.ctxt.queued = []) ∨ (∃ ret, s.pc = .returned ret) →
      DedupeRun.SettledFrom kernel start s)
    (hturn : ((s.turn kernel).pc = .loopHead ∧ (s.turn kernel).ctxt.queued = []) ∨
      ∃ ret, (s.turn kernel).pc = .returned ret) :
    DedupeRun.SettledFrom kernel start (s.turn kernel) := by
  rcases turn_cases kernel h hvisible with ⟨hpc, hqueued, heq⟩ | ⟨hpc, hqueued⟩ |
    ⟨hpc, hfail, heq⟩ | ⟨hpc, hzero, hretry⟩ | hproc | ⟨ret, hpc, heq⟩
  · rw [heq]
    exact hs (.inl ⟨hpc, hqueued⟩)
  · obtain ⟨numQueued, hfill⟩ := populateDedupeRequest_eq h hpc
    rw [DedupeRun.turn_loopHead hpc hqueued hfill] at hturn
    rcases hturn with ⟨hno, -⟩ | ⟨ret, hno⟩ <;> cases hno
  · rw [heq]
    exact ⟨s, hreach, ⟨hpc, .inl hfail⟩, rfl, rfl⟩
  · rw [DedupeRun.turn_of_retries hpc hzero hretry] at hturn
    rcases hturn with ⟨hno, -⟩ | ⟨ret, hno⟩ <;> cases hno
  · have hprocessed := processDedupes_processed s.fsBlocksize
      (show (s.answered kernel).queued = [] from (h.submitted hproc.pc).1)
    rw [DedupeRun.turn_of_processes hproc] at hturn ⊢
    rcases hturn with ⟨-, hempty⟩ | ⟨ret, hno⟩
    · rw [hprocessed.queued, List.map_eq_nil_iff] at hempty
      exact ⟨s, hreach, ⟨hproc.pc, .inr ⟨hproc.aligned, hempty⟩⟩, rfl, rfl⟩
    · cases hno
  · rw [heq]
    exact hs (.inr ⟨ret, hpc⟩)

/-- A run with something to do that has returned passed an ioctl that settled
    everything. -/
theorem settledFrom_of_returned (h : start.Inv added) (hpc : start.pc = .loopHead)
    (hqueued : start.ctxt.queued ≠ []) (hreach : DedupeRun.Reaches kernel start s) {ret : Int}
    (hret : s.pc = .returned ret) : DedupeRun.SettledFrom kernel start s := by
  have hvisible : start.Visible := by simp [DedupeRun.Visible, hpc]
  obtain ⟨n, rfl⟩ := hreach
  refine (turn_accelerates kernel added).invariant (P := fun s =>
    (s.pc = .loopHead ∧ s.ctxt.queued = []) ∨ (∃ ret, s.pc = .returned ret) →
      DedupeRun.SettledFrom kernel start s) h hvisible ?_ ?_ ?_ (.inr ⟨ret, hret⟩)
  · rintro (⟨-, hnil⟩ | ⟨ret, hno⟩)
    · exact absurd hnil hqueued
    · rw [hpc] at hno
      cases hno
  · intro m hm hs
    exact turn_settledFrom (reaches_inv h ⟨m, rfl⟩) hm ⟨m, rfl⟩ hs
  · simp [DedupeRun.Visible, hret]

variable {n loff len : Nat} {file : FileId} {ds : List Extent} {fsBlocksize ioctls : Nat}

theorem filledCtxt_queued_ne_nil (n loff len : Nat) (file : FileId) (hne : ds ≠ []) :
    (filledCtxt n loff len file ds).queued ≠ [] := by
  intro hnil
  have hlen := congrArg List.length hnil
  simp only [filledCtxt, List.length_mapIdx, List.length_nil] at hlen
  exact hne (List.length_eq_zero_iff.1 hlen)

/-- The end of a call of `dedupe_extents` is a state of its run. -/
theorem reaches_of_dedupeExtents {ctxt : DedupeCtxt} {fuel : Nat} {r : DedupeRun}
    (hrun : dedupeExtents kernel fuel ctxt fsBlocksize ioctls = some r) :
    DedupeRun.Reaches kernel (.start ctxt fsBlocksize ioctls) r := by
  refine dedupeExtents_keeps _ (fun s hs => ?_) ⟨0, rfl⟩ hrun
  exact reaches_trans hs ⟨1, rfl⟩

/-- A run that is over has returned or was aborted. -/
theorem over_of_dedupeExtents {ctxt : DedupeCtxt} {fuel : Nat} {r : DedupeRun}
    (hrun : dedupeExtents kernel fuel ctxt fsBlocksize ioctls = some r) :
    (∃ ret, r.pc = .returned ret) ∨ r.pc = .aborted := by
  have hleave : ∀ s r, True → DedupeRun.round kernel s = .leave r →
      (∃ ret, r.pc = .returned ret) ∨ r.pc = .aborted := by
    intro s r _ hround
    cases hpc : s.pc <;> simp only [DedupeRun.round, hpc] at hround <;> cases hround
    · exact .inl ⟨_, hpc⟩
    · exact .inr hpc
  exact Loop.run_partial (fun _ => True) (fun _ _ _ _ => trivial) hleave fuel _ trivial hrun

/-- A call of `dedupe_extents` ends exactly at an ioctl that settles all its
    destinations. -/
theorem dedupeExtents_ends_iff_settles (hn : 0 < n) (hne : ds ≠ [])
    (hroom : ds.length ≤ destsFor n) (f i : Nat) :
    (∃ fuel r, dedupeExtents kernel fuel (filledCtxt n loff len file ds) fsBlocksize ioctls =
      some r ∧ r.fsBlocksize = f ∧ r.ioctls = i) ↔
    ∃ s, DedupeRun.Reaches kernel
        (.start (filledCtxt n loff len file ds) fsBlocksize ioctls) s ∧
      s.Settles kernel ∧ f = s.fsBlocksize ∧ i = s.ioctls + 1 := by
  have hinv : DedupeRun.Inv (addedIdents ds)
      (.start (filledCtxt n loff len file ds) fsBlocksize ioctls) :=
    start_inv hn hroom fsBlocksize ioctls
  constructor
  · rintro ⟨fuel, r, hrun, rfl, rfl⟩
    have hreach := reaches_of_dedupeExtents hrun
    obtain ⟨ret, hret⟩ := (over_of_dedupeExtents hrun).resolve_right
      (reaches_inv hinv hreach).not_aborted
    exact settledFrom_of_returned hinv rfl (filledCtxt_queued_ne_nil n loff len file hne) hreach
      hret
  · rintro ⟨s, hreach, hsettles, rfl, rfl⟩
    obtain ⟨r, hreach', ⟨ret, hret⟩, hblock, hioctls⟩ :=
      returns_of_settles (reaches_inv hinv hreach) hsettles
    obtain ⟨m, rfl⟩ := reaches_trans hreach hreach'
    obtain ⟨fuel, hrun⟩ := run_of_returned hret
    exact ⟨fuel, _, hrun, hblock, hioctls⟩

end Settles

end Duperemove
