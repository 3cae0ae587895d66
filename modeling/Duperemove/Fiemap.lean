-- SUMMARY: The extent map of a file as fiemap returns it, and the lookup of the extent at an offset.
import Mathlib.Algebra.Group.Nat.Defs
import Mathlib.Data.List.Basic

/-!
# Extent maps

`struct fiemap` as the ioctl fills it. A `Fiemap` carries what the kernel
promises of every map it returns: extents of positive length, in file order and
disjoint, with ends that fit a 64-bit offset.
-/

namespace Duperemove

abbrev FiemapFlags := BitVec 32

def fiemapExtentLast : FiemapFlags := 0x00000001#32
def fiemapExtentDelalloc : FiemapFlags := 0x00000004#32
def fiemapExtentDataInline : FiemapFlags := 0x00000200#32
def fiemapExtentUnwritten : FiemapFlags := 0x00000800#32
def fiemapExtentShared : FiemapFlags := 0x00002000#32

/-- Flags that mark an extent as undeduplicable. -/
def fiemapSkipFlags : FiemapFlags := fiemapExtentDataInline ||| fiemapExtentUnwritten

structure FiemapExtent where
  feLogical : Nat
  fePhysical : Nat
  feLength : Nat
  feFlags : FiemapFlags
  deriving DecidableEq, Repr

namespace FiemapExtent

/-- The offset after the last byte of the extent. -/
def feEnd (e : FiemapExtent) : Nat := e.feLogical + e.feLength

/-- `fe_flags & flags` as a condition. -/
def hasFlags (e : FiemapExtent) (flags : FiemapFlags) : Bool := e.feFlags &&& flags != 0#32

def isSkipped (e : FiemapExtent) : Bool := e.hasFlags fiemapSkipFlags

def isLast (e : FiemapExtent) : Bool := e.hasFlags fiemapExtentLast

/-- The extent holds the byte at `off`. -/
def Covers (e : FiemapExtent) (off : Nat) : Prop := e.feLogical ≤ off ∧ off < e.feEnd

instance (e : FiemapExtent) (off : Nat) : Decidable (e.Covers off) :=
  inferInstanceAs (Decidable (_ ∧ _))

end FiemapExtent

/-- A filled extent map. One more than an end still fits 64 bits, because file
    offsets are signed in the kernel. -/
structure Fiemap where
  fmExtents : List FiemapExtent
  positive : ∀ e ∈ fmExtents, 0 < e.feLength
  fits : ∀ e ∈ fmExtents, e.feEnd + 1 < 2 ^ 64
  sorted : fmExtents.Pairwise (fun a b => a.feEnd ≤ b.feLogical)

namespace Fiemap

/-- `get_extent`: the first extent that does not end before `loff`. It is the
    extent that covers `loff`, or the next one when `loff` lies in a hole. -/
def getExtent (m : Fiemap) (loff : Nat) : Option FiemapExtent :=
  m.fmExtents.find? fun e => ¬ (e.feEnd - 1 < loff)

theorem mem_of_getExtent {m : Fiemap} {loff : Nat} {e : FiemapExtent}
    (h : m.getExtent loff = some e) : e ∈ m.fmExtents :=
  List.mem_of_find?_eq_some h

/-- What `getExtent` finds ends after the offset. -/
theorem lt_feEnd_of_getExtent {m : Fiemap} {loff : Nat} {e : FiemapExtent}
    (h : m.getExtent loff = some e) : loff < e.feEnd := by
  have hpos := m.positive e (mem_of_getExtent h)
  have hfound := List.find?_some h
  simp only [decide_eq_true_eq] at hfound
  unfold FiemapExtent.feEnd at *
  omega

/-- A map without an extent past `loff` has none past a later offset either. -/
theorem getExtent_eq_none_iff {m : Fiemap} {loff : Nat} :
    m.getExtent loff = none ↔ ∀ e ∈ m.fmExtents, e.feEnd ≤ loff := by
  rw [getExtent, List.find?_eq_none]
  constructor
  · intro h e he
    have hpos := m.positive e he
    have hend := h e he
    simp only [decide_eq_true_eq, Decidable.not_not] at hend
    unfold FiemapExtent.feEnd at *
    omega
  · intro h e he
    have hpos := m.positive e he
    have hend := h e he
    simp only [decide_eq_true_eq, Decidable.not_not]
    unfold FiemapExtent.feEnd at *
    omega

/-- The lookup gives the same extent up to the end of that extent. -/
theorem getExtent_congr {m : Fiemap} {loff loff' : Nat} {e : FiemapExtent}
    (h : m.getExtent loff = some e) (hle : loff ≤ loff') (hlt : loff' < e.feEnd) :
    m.getExtent loff' = some e := by
  have hpos := m.positive e (mem_of_getExtent h)
  rw [getExtent, List.find?_eq_some_iff_append] at h ⊢
  obtain ⟨hfound, before, after, heq, hbefore⟩ := h
  refine ⟨?_, before, after, heq, ?_⟩
  · simp only [decide_eq_true_eq]
    omega
  · intro a ha
    have hskip := hbefore a ha
    simp only [Bool.not_eq_eq_eq_not, Bool.not_true, decide_eq_false_iff_not,
      Decidable.not_not] at hskip ⊢
    omega

/-- A later offset has the same extent, or one behind it. -/
theorem getExtent_mono {m : Fiemap} {loff loff' : Nat} {e e' : FiemapExtent}
    (h : m.getExtent loff = some e) (hle : loff ≤ loff') (h' : m.getExtent loff' = some e') :
    e' = e ∨ e.feEnd ≤ e'.feLogical := by
  have hend := lt_feEnd_of_getExtent h'
  have hmem := mem_of_getExtent h'
  have hsorted := m.sorted
  rw [getExtent, List.find?_eq_some_iff_append] at h
  obtain ⟨-, before, after, heq, hbefore⟩ := h
  rw [heq, List.pairwise_append, List.pairwise_cons] at hsorted
  rw [heq, List.mem_append, List.mem_cons] at hmem
  rcases hmem with hin | rfl | hin
  · have hskip := hbefore e' hin
    simp only [Bool.not_eq_eq_eq_not, Bool.not_true, decide_eq_false_iff_not,
      Decidable.not_not] at hskip
    omega
  · exact .inl rfl
  · exact .inr (hsorted.2.1.1 e' hin)

/-- In a map that continues with `e`, the lookup at an offset that the earlier
    extents end before and `e` ends after gives `e`. -/
theorem getExtent_eq_of_append {m : Fiemap} {before after : List FiemapExtent}
    {e : FiemapExtent} {loff : Nat} (heq : m.fmExtents = before ++ e :: after)
    (hbefore : ∀ a ∈ before, a.feEnd ≤ loff) (hlt : loff < e.feEnd) :
    m.getExtent loff = some e := by
  rw [getExtent, List.find?_eq_some_iff_append]
  refine ⟨?_, before, after, heq, ?_⟩
  · simp only [decide_eq_true_eq]
    omega
  · intro a ha
    have hmem : a ∈ m.fmExtents := by
      rw [heq]
      exact List.mem_append_left _ ha
    have hpos := m.positive a hmem
    have hend := hbefore a ha
    simp only [Bool.not_eq_eq_eq_not, Bool.not_true, decide_eq_false_iff_not,
      Decidable.not_not]
    unfold FiemapExtent.feEnd at *
    omega

/-- The lookup at the start of an extent gives that extent. -/
theorem getExtent_feLogical {m : Fiemap} {before after : List FiemapExtent} {e : FiemapExtent}
    (heq : m.fmExtents = before ++ e :: after) : m.getExtent e.feLogical = some e := by
  have hsorted := m.sorted
  rw [heq, List.pairwise_append] at hsorted
  refine getExtent_eq_of_append heq (fun a ha => hsorted.2.2 a ha e List.mem_cons_self) ?_
  have hpos := m.positive e (by rw [heq]; simp)
  unfold FiemapExtent.feEnd
  omega

/-- The lookup at an offset that an extent covers gives this extent. -/
theorem getExtent_of_covers {m : Fiemap} {e : FiemapExtent} {loff : Nat}
    (he : e ∈ m.fmExtents) (hcovers : e.Covers loff) : m.getExtent loff = some e := by
  obtain ⟨before, after, heq⟩ := List.append_of_mem he
  have hsorted := m.sorted
  rw [heq, List.pairwise_append] at hsorted
  refine getExtent_eq_of_append heq (fun a ha => ?_) hcovers.2
  exact Nat.le_trans (hsorted.2.2 a ha e List.mem_cons_self) hcovers.1

/-- No extent that ends behind the offset starts before the one that is found. -/
theorem getExtent_feLogical_le {m : Fiemap} {loff : Nat} {e e' : FiemapExtent}
    (h : m.getExtent loff = some e) (he' : e' ∈ m.fmExtents) (hend : loff < e'.feEnd) :
    e' = e ∨ e.feEnd ≤ e'.feLogical := by
  by_cases hcovers : e'.Covers loff
  · rw [getExtent_of_covers he' hcovers] at h
    exact .inl (Option.some.inj h)
  · have hle : loff ≤ e'.feLogical := by
      unfold FiemapExtent.Covers at hcovers
      omega
    have hpos := m.positive e' he'
    have hfound : m.getExtent e'.feLogical = some e' := by
      refine getExtent_of_covers he' ⟨Nat.le_refl _, ?_⟩
      unfold FiemapExtent.feEnd
      omega
    exact getExtent_mono h hle hfound

-- ---------------------------------------------------------------------------
-- Maps that tile a file
-- ---------------------------------------------------------------------------

/-- The map of a file without holes: the first extent starts the file, each one
    starts where the one before ends, and the last one is flagged and reaches the
    end of the file. -/
structure Tiles (m : Fiemap) (filesize : Nat) : Prop where
  first : m.fmExtents.head?.map FiemapExtent.feLogical = some 0
  gapless : m.fmExtents.IsChain fun a b => a.feEnd = b.feLogical
  last : ∃ e, m.fmExtents.getLast? = some e ∧ e.isLast = true ∧ filesize ≤ e.feEnd

theorem Tiles.getExtent_ne_none {m : Fiemap} {filesize : Nat} (h : m.Tiles filesize)
    (hpos : 0 < filesize) : m.getExtent (filesize - 1) ≠ none := by
  obtain ⟨e, he, -, hend⟩ := h.last
  rw [Ne, getExtent_eq_none_iff]
  intro hall
  have := hall e (List.mem_of_getLast? he)
  omega

end Fiemap

end Duperemove
