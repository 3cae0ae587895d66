-- SUMMARY: The count of shared bytes in an area, and that it is the number of shared offsets.
import Mathlib.Order.Interval.Finset.Nat
import Duperemove.Fiemap
import Duperemove.Lib.Word

/-!
# Counting shared bytes

`fiemap_count_shared` walks all extents of a file, in whatever order and with
whatever gaps the map has, and adds up what each shared extent has in common with
an area. Against it stands the set of the offsets of the area that a shared extent
covers.
-/

namespace Duperemove

/-! ## The walk over the extents -/

/-- `fe_flags` of an extent whose bytes are counted. -/
def FiemapExtent.isCounted (e : FiemapExtent) : Bool :=
  !e.hasFlags fiemapExtentDelalloc && e.hasFlags fiemapExtentShared

/-- `extent_loff` after the clip to the start of the area. -/
def clipLoff (startOff : Nat) (e : FiemapExtent) : Nat :=
  if e.feLogical < startOff then startOff else e.feLogical

/-- `extent_end` after the clip to the end of the area. -/
def clipEnd (endOff : Nat) (e : FiemapExtent) : Nat :=
  let extentEnd := Word.wrap 64 e.feEnd
  if endOff < extentEnd then endOff else extentEnd

/-- The first condition of the loop. Both comparisons are inclusive. -/
def reachesArea (startOff endOff : Nat) (e : FiemapExtent) : Bool :=
  startOff ≤ Word.wrap 64 e.feEnd && e.feLogical ≤ endOff

/-- One round of the loop over the extents. -/
def countSharedOne (startOff endOff shared : Nat) (e : FiemapExtent) : Nat :=
  if reachesArea startOff endOff e then
    if e.isCounted then
      Word.wrap 64 (shared + Word.sub 64 (clipEnd endOff e) (clipLoff startOff e))
    else shared
  else shared

/-- How `fiemap_count_shared` ends: by `abort_on`, or with a return value and the
    final `*shared`. -/
inductive CountShared where
  | aborted
  | returned (ret : Nat) (shared : Nat)
  deriving DecidableEq, Repr

/-- `fiemap_count_shared`. The extents are what `do_fiemap` returns. -/
def fiemapCountShared (doFiemap : Option (List FiemapExtent)) (startOff endOff shared : Nat) :
    CountShared :=
  if endOff ≤ startOff then .aborted
  else
    match doFiemap with
    | none => .returned 1 shared
    | some extents => .returned 0 (extents.foldl (countSharedOne startOff endOff) 0)

/-! ## The offsets that are shared -/

/-- The two extents have no offset in common. -/
def FiemapExtent.DisjointFrom (a b : FiemapExtent) : Prop := ∀ off, a.Covers off → ¬ b.Covers off

/-- Extents of which one ends before the other starts have no offset in common. -/
theorem FiemapExtent.disjointFrom_of_le {a b : FiemapExtent}
    (h : a.feEnd ≤ b.feLogical ∨ b.feEnd ≤ a.feLogical) : a.DisjointFrom b := by
  intro off ha hb
  unfold Covers at ha hb
  omega

/-- The offsets of the area that a counted extent covers. -/
def sharedOffsets (extents : List FiemapExtent) (startOff endOff : Nat) : Finset Nat :=
  (Finset.Ico startOff endOff).filter fun off => ∃ e ∈ extents, e.isCounted ∧ e.Covers off

theorem card_sharedOffsets_le (extents : List FiemapExtent) (startOff endOff : Nat) :
    (sharedOffsets extents startOff endOff).card ≤ endOff - startOff := by
  rw [← Nat.card_Ico]
  exact Finset.card_le_card (Finset.filter_subset _ _)

/-- What one extent adds, as a set: its clipped range. -/
def clippedOffsets (startOff endOff : Nat) (e : FiemapExtent) : Finset Nat :=
  if reachesArea startOff endOff e ∧ e.isCounted then
    Finset.Ico (clipLoff startOff e) (clipEnd endOff e)
  else ∅

section Walk

variable {startOff endOff : Nat} {e : FiemapExtent}

/-- An extent that passes the test has its clipped ends in order, also when it only
    touches the area. -/
theorem clipLoff_le_clipEnd (hlt : startOff < endOff) (hfits : e.feEnd < 2 ^ 64)
    (hreach : reachesArea startOff endOff e) : clipLoff startOff e ≤ clipEnd endOff e := by
  simp only [reachesArea, Bool.and_eq_true, decide_eq_true_eq] at hreach
  rw [Word.wrap_of_lt hfits] at hreach
  have hle : e.feLogical ≤ e.feEnd := Nat.le_add_right _ _
  simp only [clipLoff, clipEnd, Word.wrap_of_lt hfits]
  split <;> split <;> omega

theorem mem_clippedOffsets (hfits : e.feEnd < 2 ^ 64) {off : Nat} :
    off ∈ clippedOffsets startOff endOff e ↔
      off ∈ Finset.Ico startOff endOff ∧ e.isCounted ∧ e.Covers off := by
  simp only [clippedOffsets, reachesArea, clipLoff, clipEnd, Word.wrap_of_lt hfits,
    FiemapExtent.Covers, Finset.mem_Ico, Bool.and_eq_true, decide_eq_true_eq]
  cases hcounted : e.isCounted with
  | false => simp
  | true =>
    simp only [and_true, true_and]
    split
    · rw [Finset.mem_Ico]
      split <;> split <;> omega
    · simp only [Finset.notMem_empty, false_iff]
      omega

/-- One round adds the clipped range, unless the sum leaves 64 bits. -/
theorem countSharedOne_eq (hlt : startOff < endOff) (hfits : e.feEnd < 2 ^ 64) {shared : Nat}
    (hsum : shared + (clippedOffsets startOff endOff e).card < 2 ^ 64) :
    countSharedOne startOff endOff shared e =
      shared + (clippedOffsets startOff endOff e).card := by
  unfold countSharedOne clippedOffsets at *
  by_cases hreach : reachesArea startOff endOff e
  · cases hcounted : e.isCounted with
    | false => simp
    | true =>
      have hle := clipLoff_le_clipEnd hlt hfits hreach
      simp only [hreach, hcounted, and_self, if_true, Nat.card_Ico] at hsum ⊢
      rw [Word.sub_of_le hle, Word.wrap_of_lt hsum]
  · simp [hreach]

variable {extents : List FiemapExtent}

theorem sharedOffsets_append (hfits : e.feEnd < 2 ^ 64) :
    sharedOffsets (extents ++ [e]) startOff endOff =
      sharedOffsets extents startOff endOff ∪ clippedOffsets startOff endOff e := by
  ext off
  rw [Finset.mem_union, mem_clippedOffsets hfits]
  simp only [sharedOffsets, Finset.mem_filter, List.mem_append, List.mem_singleton]
  constructor
  · rintro ⟨hin, a, ha | rfl, hcounted⟩
    · exact .inl ⟨hin, a, ha, hcounted⟩
    · exact .inr ⟨hin, hcounted⟩
  · rintro (⟨hin, a, ha, hcounted⟩ | ⟨hin, hcounted⟩)
    · exact ⟨hin, a, .inl ha, hcounted⟩
    · exact ⟨hin, e, .inr rfl, hcounted⟩

/-- A new extent brings only new offsets. -/
theorem disjoint_clippedOffsets (hfits : e.feEnd < 2 ^ 64)
    (hdisj : ∀ a ∈ extents, a.DisjointFrom e) :
    Disjoint (sharedOffsets extents startOff endOff) (clippedOffsets startOff endOff e) := by
  rw [Finset.disjoint_left]
  intro off hold hnew
  obtain ⟨-, a, ha, -, hcovers⟩ := Finset.mem_filter.mp hold
  obtain ⟨-, -, hcovers'⟩ := (mem_clippedOffsets hfits).mp hnew
  exact hdisj a ha off hcovers hcovers'

theorem card_sharedOffsets_append (hfits : e.feEnd < 2 ^ 64)
    (hdisj : ∀ a ∈ extents, a.DisjointFrom e) :
    (sharedOffsets (extents ++ [e]) startOff endOff).card =
      (sharedOffsets extents startOff endOff).card +
        (clippedOffsets startOff endOff e).card := by
  rw [sharedOffsets_append hfits,
    Finset.card_union_of_disjoint (disjoint_clippedOffsets hfits hdisj)]

/-- After any number of rounds `*shared` is the number of shared offsets so far. -/
theorem foldl_countSharedOne (hlt : startOff < endOff) (hend : endOff < 2 ^ 64)
    (hdisj : extents.Pairwise FiemapExtent.DisjointFrom)
    (hfits : ∀ e ∈ extents, e.feEnd < 2 ^ 64) :
    extents.foldl (countSharedOne startOff endOff) 0 =
      (sharedOffsets extents startOff endOff).card := by
  induction extents using List.reverseRecOn with
  | nil => simp [sharedOffsets]
  | append_singleton extents e ih =>
    rw [List.pairwise_append] at hdisj
    have hfit : e.feEnd < 2 ^ 64 := hfits e (by simp)
    have hnew : ∀ a ∈ extents, a.DisjointFrom e := fun a ha => hdisj.2.2 a ha e (by simp)
    have hcard := @card_sharedOffsets_append startOff endOff _ _ hfit hnew
    have hbound := card_sharedOffsets_le (extents ++ [e]) startOff endOff
    rw [List.foldl_append, ih hdisj.1 fun a ha => hfits a (by simp [ha]), List.foldl_cons,
      List.foldl_nil, hcard]
    exact countSharedOne_eq hlt hfit (by omega)

end Walk

/-- On extents without a common offset the count is exact: it is the number of
    offsets of the area in a shared extent that is not delayed, it stays within the
    area, and neither the subtraction nor the sum of any round wraps. -/
theorem fiemapCountShared_exact {extents : List FiemapExtent} {startOff endOff : Nat}
    (hdisj : extents.Pairwise FiemapExtent.DisjointFrom)
    (hfits : ∀ e ∈ extents, e.feEnd < 2 ^ 64)
    (hlt : startOff < endOff) (hend : endOff < 2 ^ 64) (shared : Nat) :
    fiemapCountShared (some extents) startOff endOff shared =
      .returned 0 (sharedOffsets extents startOff endOff).card ∧
    (sharedOffsets extents startOff endOff).card ≤ endOff - startOff ∧
    ∀ before e after, extents = before ++ e :: after →
      reachesArea startOff endOff e → e.isCounted →
        clipLoff startOff e ≤ clipEnd endOff e ∧
        before.foldl (countSharedOne startOff endOff) 0 +
          (clipEnd endOff e - clipLoff startOff e) < 2 ^ 64 := by
  refine ⟨?_, card_sharedOffsets_le _ _ _, ?_⟩
  · rw [fiemapCountShared, if_neg (by omega), foldl_countSharedOne hlt hend hdisj hfits]
  · rintro before e after rfl hreach hcounted
    have hfit : e.feEnd < 2 ^ 64 := hfits e (by simp)
    refine ⟨clipLoff_le_clipEnd hlt hfit hreach, ?_⟩
    rw [List.pairwise_append] at hdisj
    have hcard := @card_sharedOffsets_append startOff endOff _ _ hfit
      fun a ha => hdisj.2.2 a ha e (by simp)
    have hbound := card_sharedOffsets_le (before ++ [e]) startOff endOff
    have hclip : (clippedOffsets startOff endOff e).card =
        clipEnd endOff e - clipLoff startOff e := by
      rw [clippedOffsets, if_pos ⟨hreach, hcounted⟩, Nat.card_Ico]
    rw [foldl_countSharedOne hlt hend hdisj.1 fun a ha => hfits a (by simp [ha])]
    omega

/-- An extent behind the area, one across its end, one across its start and a
    delayed one in between. -/
def unsortedExtents : List FiemapExtent :=
  [⟨9, 90, 4, fiemapExtentShared⟩, ⟨8, 80, 1, fiemapExtentShared⟩,
    ⟨0, 100, 4, fiemapExtentShared⟩, ⟨4, 40, 4, fiemapExtentShared ||| fiemapExtentDelalloc⟩]

theorem fiemapCountShared_unsorted :
    fiemapCountShared (some unsortedExtents) 2 9 77 = .returned 0 3 ∧
    (sharedOffsets unsortedExtents 2 9).card ≤ 9 - 2 := by
  have hpairs : unsortedExtents.Pairwise fun a b =>
      a.feEnd ≤ b.feLogical ∨ b.feEnd ≤ a.feLogical := by decide
  obtain ⟨heq, hle, -⟩ := fiemapCountShared_exact
    (hpairs.imp FiemapExtent.disjointFrom_of_le) (by decide) (by decide : 2 < 9) (by decide) 77
  exact ⟨heq, hle⟩

end Duperemove
