-- SUMMARY: The length of a request in aligned mode: when it is the largest multiple of the block size.
import Mathlib.Order.Bounds.Basic
import Duperemove.Dedupe.Ranges

/-!
# Aligned lengths

In aligned mode a request is cut to whole blocks. The mask for it has the type of
the block size, 32 bits, and is widened with zeros, so it also clears the upper half
of the length. For lengths from 4 GiB on, the request is then too short.
-/

namespace Duperemove

/-- The length to submit of what is left: all of it, or in aligned mode, when it is
    more than a block, as many whole blocks as there are. -/
def IsAlignedLength (fsBlocksize len srcLength : Nat) : Prop :=
  if fsBlocksize = 0 ∨ len ≤ fsBlocksize then srcLength = len
  else IsGreatest {n | fsBlocksize ∣ n ∧ n ≤ len} srcLength

/-- A block size as `fs_blocksize` holds it: none yet, or a power of two. -/
def IsBlocksize (fsBlocksize : Nat) : Prop :=
  fsBlocksize = 0 ∨ ∃ k < 32, fsBlocksize = 2 ^ k

/-- The kernel dedupes all that the ioctl asks for. -/
def DedupeRun.Obliges (kernel : Nat → KernelAnswer) (s : DedupeRun) : Prop :=
  (kernel s.ioctls).ret = 0 ∧
    ∀ i < s.ctxt.same.destCount, (kernel s.ioctls).replies i = ⟨s.ctxt.same.srcLength, 0⟩

/-- `set_aligned_same_length` is right for a block size and a remaining length: it
    gives the aligned length, which is something when something is left, and in
    aligned mode less than a block stays when the kernel does what it is asked to. -/
structure AlignsRight (fsBlocksize len : Nat) : Prop where
  law : ∀ ctxt same, ctxt.len = len →
    IsAlignedLength fsBlocksize len (setAlignedSameLength fsBlocksize ctxt same).srcLength
  positive : 0 < len → ∀ ctxt same, ctxt.len = len →
    0 < (setAlignedSameLength fsBlocksize ctxt same).srcLength
  rest : fsBlocksize ≠ 0 → ∀ maxExtents loff elen file ds kernel before ioctls s,
    0 < maxExtents → ds.length ≤ destsFor maxExtents → (∀ e ∈ ds, e.eLoff < 2 ^ 64) →
    loff < 2 ^ 64 → elen < 2 ^ 64 →
    DedupeRun.Reaches kernel
      (.start (filledCtxt maxExtents loff elen file ds) before ioctls) s →
    s.pc = .ioctl → s.fsBlocksize = fsBlocksize → s.ctxt.len = len → s.Obliges kernel →
    ∃ fuel s', dedupeExtents kernel fuel (filledCtxt maxExtents loff elen file ds) before ioctls =
      some s' ∧ s'.pc = .returned 0 ∧ s'.ctxt.len < fsBlocksize

/-! ## The mask -/

theorem isGreatest_multiple {size : Nat} (hsize : 0 < size) (len : Nat) :
    IsGreatest {n | size ∣ n ∧ n ≤ len} (len / size * size) := by
  refine ⟨⟨Nat.dvd_mul_left _ _, Nat.div_mul_le_self len size⟩, ?_⟩
  rintro _ ⟨⟨q, rfl⟩, hle⟩
  rw [Nat.mul_comm]
  exact Nat.mul_le_mul_right size ((Nat.le_div_iff_mul_le hsize).2 (by rwa [Nat.mul_comm]))

/-- What the code computes: the low half of the length, in whole blocks. -/
theorem alignedLength_two_pow {k len : Nat} (hk : k < 32) (hlt : 2 ^ k < len) :
    alignedLength (2 ^ k) len = len % 2 ^ 32 / 2 ^ k * 2 ^ k := by
  have hpos := Nat.two_pow_pos k
  have hle : 2 ^ k ≤ 2 ^ 32 := Nat.pow_le_pow_right Nat.two_pos (by omega)
  have hmask : 2 ^ 32 - 1 - Word.sub 32 (2 ^ k) 1 = 2 ^ 32 - 2 ^ k := by
    rw [Word.sub_of_le hpos]
    omega
  rw [alignedLength, if_pos ⟨Nat.ne_of_gt hpos, hlt⟩, hmask, Word.and_two_pow_sub (by omega)]

/-- The law of `set_aligned_same_length` holds for short lengths, and only there. -/
theorem isAlignedLength_iff {fsBlocksize len : Nat} (hsize : IsBlocksize fsBlocksize) :
    IsAlignedLength fsBlocksize len (alignedLength fsBlocksize len) ↔
      fsBlocksize = 0 ∨ len ≤ fsBlocksize ∨ len < 2 ^ 32 := by
  unfold IsAlignedLength
  by_cases hwhole : fsBlocksize = 0 ∨ len ≤ fsBlocksize
  · have hno : ¬ (fsBlocksize ≠ 0 ∧ len > fsBlocksize) := by omega
    rw [if_pos hwhole, alignedLength, if_neg hno]
    exact iff_of_true rfl (or_assoc.1 (.inl hwhole))
  · rw [if_neg hwhole]
    rcases hsize with hzero | ⟨k, hk, rfl⟩
    · exact absurd (.inl hzero) hwhole
    · have hpos := Nat.two_pow_pos k
      have hlt : 2 ^ k < len := by omega
      have hgreatest := isGreatest_multiple hpos len
      have hblock : 2 ^ k ∣ 2 ^ 32 := Nat.pow_dvd_pow 2 (by omega)
      rw [alignedLength_two_pow hk hlt]
      constructor
      · intro hmask
        refine .inr (.inr ?_)
        by_contra hlong
        -- 2^32 is a multiple of the block size that fits, and the mask stays below it.
        have hup := hmask.2 ⟨hblock, (by omega : 2 ^ 32 ≤ len)⟩
        have hlow := Nat.div_mul_le_self (len % 2 ^ 32) (2 ^ k)
        have hmod := Nat.mod_lt len (Nat.two_pow_pos 32)
        omega
      · rintro (hzero | hle | hshort)
        · exact absurd (.inl hzero) hwhole
        · exact absurd (.inr hle) hwhole
        · rwa [Nat.mod_eq_of_lt hshort]

/-! ## The rest of a run -/

/-- The aligned length leaves less than a block. -/
theorem IsAlignedLength.sub_lt {fsBlocksize len srcLength : Nat} (hsize : fsBlocksize ≠ 0)
    (h : IsAlignedLength fsBlocksize len srcLength) :
    srcLength ≤ len ∧ len - srcLength < fsBlocksize := by
  unfold IsAlignedLength at h
  split at h
  · omega
  · have heq := h.unique (isGreatest_multiple (Nat.pos_of_ne_zero hsize) len)
    have hdiv := Nat.div_add_mod' len fsBlocksize
    have hmod := Nat.mod_lt len (Nat.pos_of_ne_zero hsize)
    omega

section Run

variable {ds : List Extent} {loff elen : Nat} {kernel : Nat → KernelAnswer} {s : DedupeRun}

/-- The answer of an obliging kernel is taken apart, and its largest count is the
    length of the request. -/
theorem obliges_processes (h : s.Sound ds loff elen) (hpc : s.pc = .ioctl)
    (haligned : s.fsBlocksize ≠ 0) (hobliges : s.Obliges kernel) :
    s.Processes kernel ∧
      (s.answered kernel).same.maxDeduped s.ctxt.inProgress = s.ctxt.same.srcLength := by
  have hsubmits := h.submits hpc
  refine ⟨⟨hpc, hobliges.1, fun hretry => haligned hretry.2⟩, ?_⟩
  refine maxDeduped_eq_of_forall hsubmits.some fun r hr => ?_
  rw [h.reply_answered hr, hobliges.2 _ (h.inv.indices.2 r hr)]
  refine Word.wrap_of_lt ?_
  rw [hsubmits.srcLength]
  exact Nat.lt_of_le_of_lt (alignedLength_le _ _) h.len_lt

/-- When the aligned length leaves less than a block, the answer to it is the last. -/
theorem turn_obliges (h : s.Sound ds loff elen) (hpc : s.pc = .ioctl)
    (haligned : s.fsBlocksize ≠ 0) (hobliges : s.Obliges kernel)
    (hlaw : IsAlignedLength s.fsBlocksize s.ctxt.len (alignedLength s.fsBlocksize s.ctxt.len)) :
    ((s.turn kernel).turn kernel).pc = .returned 0 ∧
      ((s.turn kernel).turn kernel).ctxt.len < s.fsBlocksize := by
  obtain ⟨hproc, hmax⟩ := obliges_processes h hpc haligned hobliges
  obtain ⟨hhead, -, hprocessed⟩ := h.turn_processes hproc
  obtain ⟨hle, hrest⟩ := hlaw.sub_lt haligned
  rw [← (h.submits hpc).srcLength] at hle hrest
  have hleft : (s.answered kernel).lenLeft = s.ctxt.len - s.ctxt.same.srcLength := by
    rw [← hmax] at hle ⊢
    exact Word.sub_of_le hle
  have hnone : (s.turn kernel).ctxt.queued = [] := by
    rw [hprocessed.queued, DedupeCtxt.requeued, hleft, if_pos ⟨haligned, hrest⟩, List.map_nil]
  rw [DedupeRun.turn_loopHead_nil hhead hnone]
  refine ⟨rfl, ?_⟩
  change (s.turn kernel).ctxt.len < s.fsBlocksize
  rw [hprocessed.len, hleft]
  exact hrest

end Run

/-- The aligned length is right for a power of two as block size exactly when there is
    no block size, at most a block is left, or less than 4 GiB. -/
theorem setAlignedSameLength_right_iff {fsBlocksize len : Nat}
    (hsize : IsBlocksize fsBlocksize) (hlen : len < 2 ^ 64) :
    AlignsRight fsBlocksize len ↔ fsBlocksize = 0 ∨ len ≤ fsBlocksize ∨ len < 2 ^ 32 := by
  constructor
  · intro hright
    exact (isAlignedLength_iff hsize).1
      (hright.law { newDedupeCtxt 2 0 len 0 with len := len } (.zeroed 1) rfl)
  · intro hshort
    have hlaw := (isAlignedLength_iff hsize).2 hshort
    constructor
    · rintro ctxt same rfl
      exact hlaw
    · rintro hpos ctxt same rfl
      change 0 < alignedLength fsBlocksize ctxt.len
      by_cases hzero : fsBlocksize = 0
      · simpa [alignedLength, hzero] using hpos
      · by_cases hblock : ctxt.len ≤ fsBlocksize
        · simpa [alignedLength, Nat.not_lt.2 hblock] using hpos
        · have hrest := (hlaw.sub_lt hzero).2
          omega
    · rintro haligned maxExtents loff elen file ds kernel before ioctls _ hmax hroom hoff hloff
        helen ⟨n, rfl⟩ hpc rfl rfl hobliges
      have hstart : (DedupeRun.start (filledCtxt maxExtents loff elen file ds) before ioctls).Sound
          ds loff elen := start_sound hmax hroom hoff hloff helen before ioctls
      have hsound := reaches_sound hstart (DedupeRun.visible_of_ioctl hpc)
      obtain ⟨hret, hrest⟩ := turn_obliges hsound hpc haligned hobliges hlaw
      obtain ⟨m, hm⟩ := reaches_turn (reaches_turn ⟨n, rfl⟩ hsound) (turn_sound hsound)
      rw [← hm] at hret hrest
      obtain ⟨fuel, hrun⟩ := run_of_returned hret
      exact ⟨fuel, _, hrun, hret, hrest⟩

theorem setAlignedSameLength_right_pages : AlignsRight 4096 (2 ^ 32 - 1) :=
  (setAlignedSameLength_right_iff (.inr ⟨12, by decide, by decide⟩) (by decide)).2
    (.inr (.inr (by decide)))

/-- Of 4 GiB and a page only the page is submitted, and of 4 GiB nothing. -/
theorem not_alignsRight_fourGiB :
    ¬ AlignsRight 4096 (2 ^ 32 + 4096) ∧
    (setAlignedSameLength 4096 (newDedupeCtxt 2 0 (2 ^ 32 + 4096) 1) (.zeroed 1)).srcLength = 4096 ∧
    (setAlignedSameLength 4096 (newDedupeCtxt 2 0 (2 ^ 32) 1) (.zeroed 1)).srcLength = 0 := by
  refine ⟨fun hright => ?_, by decide, by decide⟩
  have hlaw := hright.law (newDedupeCtxt 2 0 (2 ^ 32 + 4096) 1) (.zeroed 1) rfl
  have hshort := (isAlignedLength_iff (.inr ⟨12, by decide, by decide⟩)).1 hlaw
  exact absurd hshort (by decide)

end Duperemove
