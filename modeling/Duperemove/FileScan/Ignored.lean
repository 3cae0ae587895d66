-- SUMMARY: `is_area_ignored`: which extents it looks at, and when it answers for the area only.
import Duperemove.FileScan.Model

/-!
# Ignored areas

`is_area_ignored` hops over an area from extent to extent. The lookup behind a hole
gives the next extent even when that one lies behind the area, and each hop goes one
byte too far: the byte right behind an extent is never looked at.
-/

namespace Duperemove

/-- The extent and the bytes from `start` to `stop` have one in common. -/
def FiemapExtent.Overlaps (e : FiemapExtent) (start stop : Nat) : Prop :=
  e.feLogical < stop ∧ start < e.feEnd

instance (e : FiemapExtent) (start stop : Nat) : Decidable (e.Overlaps start stop) :=
  inferInstanceAs (Decidable (_ ∧ _))

/-- The extents that the walk over the area looks at. -/
inductive LooksAt (m : Fiemap) (stop : Nat) : Nat → FiemapExtent → Prop
  | here {start : Nat} {e : FiemapExtent} (hin : start < stop)
      (hfound : m.getExtent start = some e) : LooksAt m stop start e
  | next {start : Nat} {a e : FiemapExtent} (hin : start < stop)
      (hfound : m.getExtent start = some a) (hskip : a.isSkipped = false)
      (hlast : a.isLast = false) (hrest : LooksAt m stop (a.feEnd + 1) e) :
      LooksAt m stop start e

/-- A skip extent in the area that the walk does not get to: the walk ends at an
    extent in front of it, which has the last flag or reaches up to the last byte of
    the area. -/
def CutOff (m : Fiemap) (start stop : Nat) (k : FiemapExtent) : Prop :=
  k ∈ m.fmExtents ∧ k.isSkipped ∧ k.feLogical < stop ∧
  ∃ a, LooksAt m stop start a ∧ a.isSkipped = false ∧ a.feEnd ≤ k.feLogical ∧
    (a.isLast ∨ stop ≤ a.feEnd + 1)

/-- A skip extent in the area that the walk hops over: its only byte lies right
    behind an extent that is looked at. -/
def PassedOver (m : Fiemap) (start stop : Nat) (k : FiemapExtent) : Prop :=
  k ∈ m.fmExtents ∧ k.isSkipped ∧ k.feLogical < stop ∧
  ∃ a, LooksAt m stop start a ∧ a.isSkipped = false ∧ k.feLogical = a.feEnd ∧ k.feLength = 1

section Walk

variable {m : Fiemap} {start stop : Nat} {e a k : FiemapExtent}

theorem LooksAt.mem (h : LooksAt m stop start e) : e ∈ m.fmExtents := by
  induction h with
  | here _ hfound => exact Fiemap.mem_of_getExtent hfound
  | next _ _ _ _ _ ih => exact ih

theorem LooksAt.start_lt (h : LooksAt m stop start e) : start < stop := by
  cases h with
  | here hin _ => exact hin
  | next hin _ _ _ _ => exact hin

theorem LooksAt.lt_feEnd (h : LooksAt m stop start e) : start < e.feEnd := by
  induction h with
  | here _ hfound => exact Fiemap.lt_feEnd_of_getExtent hfound
  | next _ hfound _ _ _ ih =>
    have := Fiemap.lt_feEnd_of_getExtent hfound
    omega

/-! ## The function and the walk -/

/-- Behind an extent that is found, fewer extents are left. -/
theorem length_behind_lt (hfound : m.getExtent start = some a) :
    (m.fmExtents.filter fun e => a.feEnd + 1 < e.feEnd).length <
      (m.fmExtents.filter fun e => start < e.feEnd).length := by
  have hend := Fiemap.lt_feEnd_of_getExtent hfound
  have hsub : (m.fmExtents.filter fun e => a.feEnd + 1 < e.feEnd) =
      (m.fmExtents.filter fun e => start < e.feEnd).filter fun e => a.feEnd + 1 < e.feEnd := by
    rw [List.filter_filter]
    refine List.filter_congr fun e _ => ?_
    rw [← Bool.decide_and, decide_eq_decide]
    omega
  rw [hsub, List.length_filter_lt_length_iff_exists]
  refine ⟨a, ?_, by simp⟩
  simp [Fiemap.mem_of_getExtent hfound, hend]

theorem isAreaIgnoredFrom_eq_true_iff {fuel : Nat}
    (hfuel : (m.fmExtents.filter fun e => start < e.feEnd).length < fuel) :
    isAreaIgnoredFrom m stop fuel start = true ↔
      ∃ e, LooksAt m stop start e ∧ e.isSkipped := by
  induction fuel generalizing start with
  | zero => omega
  | succ fuel ih =>
    unfold isAreaIgnoredFrom
    by_cases hin : start < stop
    · rw [if_pos hin]
      cases hfound : m.getExtent start with
      | none =>
        refine iff_of_false (by simp) ?_
        rintro ⟨e, hlook, -⟩
        have hend := Fiemap.getExtent_eq_none_iff.1 hfound e hlook.mem
        exact absurd hlook.lt_feEnd (Nat.not_lt.2 hend)
      | some a =>
        have hleft := length_behind_lt hfound
        cases hskip : a.isSkipped with
        | true => exact iff_of_true (by simp [hskip]) ⟨a, .here hin hfound, hskip⟩
        | false =>
          cases hlast : a.isLast with
          | true =>
            refine iff_of_false (by simp [hskip, hlast]) ?_
            rintro ⟨e, hlook, he⟩
            cases hlook with
            | here _ hfound' => simp_all
            | next _ hfound' _ hlast' _ => simp_all
          | false =>
            simp only [hskip, hlast, Bool.false_eq_true, if_false]
            rw [ih (by omega)]
            constructor
            · rintro ⟨e, hlook, he⟩
              exact ⟨e, .next hin hfound hskip hlast hlook, he⟩
            · rintro ⟨e, hlook, he⟩
              cases hlook with
              | here _ hfound' => simp_all
              | next _ hfound' _ _ hrest =>
                rw [hfound] at hfound'
                obtain rfl := Option.some.inj hfound'
                exact ⟨e, hrest, he⟩
    · rw [if_neg hin]
      refine iff_of_false Bool.false_ne_true ?_
      rintro ⟨e, hlook, -⟩
      exact hin hlook.start_lt

/-- The function answers whether the walk looks at a skip extent. -/
theorem isAreaIgnored_eq_true_iff {len : Nat} :
    isAreaIgnored m start len = true ↔
      ∃ e, LooksAt m (start + len) start e ∧ e.isSkipped := by
  refine isAreaIgnoredFrom_eq_true_iff ?_
  have := List.length_filter_le (fun e : FiemapExtent => decide (start < e.feEnd)) m.fmExtents
  omega

/-! ## What the walk misses -/

/-- At the extent where the walk ends it has looked at no other skip extent. -/
theorem LooksAt.eq_or_not_skipped (ha : LooksAt m stop start a)
    (hend : a.isSkipped ∨ a.isLast ∨ stop ≤ a.feEnd + 1) (he : LooksAt m stop start e) :
    e = a ∨ e.isSkipped = false := by
  induction ha with
  | here _ hfound =>
    cases he with
    | here _ hfound' => exact .inl (Option.some.inj (hfound'.symm.trans hfound))
    | @next _ b _ _ hfound' hskip hlast hrest =>
      obtain rfl := Option.some.inj (hfound.symm.trans hfound')
      rw [hskip, hlast] at hend
      have := hrest.start_lt
      simp only [Bool.false_eq_true, false_or] at hend
      omega
  | @next _ b _ _ hfound hskip _ _ ih =>
    cases he with
    | here _ hfound' =>
      obtain rfl := Option.some.inj (hfound.symm.trans hfound')
      exact .inr hskip
    | next _ hfound' _ _ hrest =>
      obtain rfl := Option.some.inj (hfound.symm.trans hfound')
      exact ih hend hrest

theorem CutOff.not_skipped (h : CutOff m start stop k) (he : LooksAt m stop start e) :
    e.isSkipped = false := by
  obtain ⟨-, -, -, a, ha, hskip, -, hend⟩ := h
  rcases ha.eq_or_not_skipped (.inr hend) he with rfl | hno
  · exact hskip
  · exact hno

theorem CutOff.overlaps (h : CutOff m start stop k) : k.Overlaps start stop := by
  obtain ⟨hk, -, hin, a, ha, -, hle, -⟩ := h
  have := ha.lt_feEnd
  have := m.positive k hk
  refine ⟨hin, ?_⟩
  unfold FiemapExtent.feEnd at *
  omega

theorem PassedOver.overlaps (h : PassedOver m start stop k) : k.Overlaps start stop := by
  obtain ⟨hk, -, hin, a, ha, -, heq, -⟩ := h
  have := ha.lt_feEnd
  refine ⟨hin, ?_⟩
  unfold FiemapExtent.feEnd at *
  omega

theorem CutOff.next (hin : start < stop) (hfound : m.getExtent start = some a)
    (hskip : a.isSkipped = false) (hlast : a.isLast = false)
    (h : CutOff m (a.feEnd + 1) stop k) : CutOff m start stop k := by
  obtain ⟨hk, hkskip, hkin, b, hb, hrest⟩ := h
  exact ⟨hk, hkskip, hkin, b, .next hin hfound hskip hlast hb, hrest⟩

theorem PassedOver.next (hin : start < stop) (hfound : m.getExtent start = some a)
    (hskip : a.isSkipped = false) (hlast : a.isLast = false)
    (h : PassedOver m (a.feEnd + 1) stop k) : PassedOver m start stop k := by
  obtain ⟨hk, hkskip, hkin, b, hb, hrest⟩ := h
  exact ⟨hk, hkskip, hkin, b, .next hin hfound hskip hlast hb, hrest⟩

/-- A skip extent in the area, or one in front of it, is found, unless it is cut off
    or passed over. The induction follows the hops. -/
theorem exists_looksAt_or_missed (hk : k ∈ m.fmExtents) (hkskip : k.isSkipped = true)
    (hover : k.Overlaps start stop) (hin : start < stop) :
    (∃ e, LooksAt m stop start e ∧ e.isSkipped ∧ e.feLogical ≤ k.feLogical) ∨
      CutOff m start stop k ∨ PassedOver m start stop k := by
  induction hn : stop - start using Nat.strongRecOn generalizing start with
  | ind n ih =>
    obtain ⟨a, hfound⟩ : ∃ a, m.getExtent start = some a := by
      rw [← Option.ne_none_iff_exists', Ne, Fiemap.getExtent_eq_none_iff]
      exact fun hall => absurd hover.2 (Nat.not_lt.2 (hall k hk))
    have hlook : LooksAt m stop start a := .here hin hfound
    have hlt := hlook.lt_feEnd
    rcases Fiemap.getExtent_feLogical_le hfound hk hover.2 with rfl | hle
    · exact .inl ⟨k, hlook, hkskip, Nat.le_refl _⟩
    · cases hskip : a.isSkipped with
      | true =>
        exact .inl ⟨a, hlook, hskip, Nat.le_trans (Nat.le_add_right _ _) hle⟩
      | false =>
        by_cases hend : a.isLast = true ∨ stop ≤ a.feEnd + 1
        · exact .inr (.inl ⟨hk, hkskip, hover.1, a, hlook, hskip, hle, hend⟩)
        · have hlast : a.isLast = false := by
            rw [← Bool.not_eq_true]
            exact fun h => hend (.inl h)
          by_cases hbehind : a.feEnd + 1 < k.feEnd
          · rcases ih (stop - (a.feEnd + 1)) (by omega) ⟨hover.1, hbehind⟩ (by omega) rfl with
              ⟨e, he, hfirst⟩ | hcut | hpassed
            · exact .inl ⟨e, .next hin hfound hskip hlast he, hfirst⟩
            · exact .inr (.inl (hcut.next hin hfound hskip hlast))
            · exact .inr (.inr (hpassed.next hin hfound hskip hlast))
          · have hpos := m.positive k hk
            refine .inr (.inr ⟨hk, hkskip, hover.1, a, hlook, hskip, ?_, ?_⟩)
            all_goals
              unfold FiemapExtent.feEnd at *
              omega

end Walk

/-- The answer is about the area, no more and no less, exactly when no skip extent
    in the area is cut off, no skip extent that is looked at lies behind the area,
    and behind a skip extent that is passed over another one is looked at. -/
theorem isAreaIgnored_overlaps_iff (m : Fiemap) {start len : Nat} (hlen : 0 < len) :
    (isAreaIgnored m start len = true ↔
      ∃ e ∈ m.fmExtents, e.isSkipped ∧ e.Overlaps start (start + len)) ↔
    (∀ k, ¬ CutOff m start (start + len) k) ∧
    (∀ e, LooksAt m (start + len) start e → e.isSkipped →
      e.feLogical < start + len ∨ ∃ k, PassedOver m start (start + len) k) ∧
    (∀ k, PassedOver m start (start + len) k →
      ∃ e, LooksAt m (start + len) start e ∧ e.isSkipped) := by
  rw [isAreaIgnored_eq_true_iff]
  constructor
  · intro hright
    refine ⟨fun k hcut => ?_, fun e he hskip => ?_, fun k hpassed => ?_⟩
    · obtain ⟨e, he, hskip⟩ := hright.2 ⟨k, hcut.1, hcut.2.1, hcut.overlaps⟩
      rw [hcut.not_skipped he] at hskip
      cases hskip
    · obtain ⟨k, hk, hkskip, hover⟩ := hright.1 ⟨e, he, hskip⟩
      rcases exists_looksAt_or_missed hk hkskip hover he.start_lt with
        ⟨a, ha, haskip, hle⟩ | hcut | hpassed
      · -- The walk ends at the first skip extent, so `e` is the one in front of `k`.
        rcases he.eq_or_not_skipped (.inl hskip) ha with rfl | hno
        · exact .inl (Nat.lt_of_le_of_lt hle hover.1)
        · rw [hno] at haskip
          cases haskip
      · rw [hcut.not_skipped he] at hskip
        cases hskip
      · exact .inr ⟨k, hpassed⟩
    · exact hright.2 ⟨k, hpassed.1, hpassed.2.1, hpassed.overlaps⟩
  · rintro ⟨hcut, hbehind, hpassed⟩
    constructor
    · rintro ⟨e, he, hskip⟩
      rcases hbehind e he hskip with hin | ⟨k, hk⟩
      · exact ⟨e, he.mem, hskip, hin, he.lt_feEnd⟩
      · exact ⟨k, hk.1, hk.2.1, hk.overlaps⟩
    · rintro ⟨k, hk, hskip, hover⟩
      rcases exists_looksAt_or_missed hk hskip hover (by omega) with
        ⟨a, ha, haskip, -⟩ | hmiss | hmiss
      · exact ⟨a, ha, haskip⟩
      · exact absurd hmiss (hcut k)
      · exact hpassed k hmiss

/-- Data, a hole and a preallocated extent. -/
def gapMap : Fiemap where
  fmExtents := [⟨0, 1048576, 4096, 0⟩,
    ⟨8192, 2097152, 4096, fiemapExtentUnwritten ||| fiemapExtentLast⟩]
  positive := by decide
  fits := by decide
  sorted := by decide

/-- Data that ends one byte in front of a block border, and a preallocated extent. -/
def oddMap : Fiemap where
  fmExtents := [⟨0, 1048576, 4095, 0⟩,
    ⟨4095, 2097152, 4096, fiemapExtentUnwritten ||| fiemapExtentLast⟩]
  positive := by decide
  fits := by decide
  sorted := by decide

theorem isAreaIgnored_overlaps_gapMap :
    (isAreaIgnored gapMap 0 4096 = true ↔
      ∃ e ∈ gapMap.fmExtents, e.isSkipped ∧ e.Overlaps 0 (0 + 4096)) ∧
    ¬ ∃ k, CutOff gapMap 0 (0 + 4096) k := by
  have hright : isAreaIgnored gapMap 0 4096 = true ↔
      ∃ e ∈ gapMap.fmExtents, e.isSkipped ∧ e.Overlaps 0 (0 + 4096) := by decide
  refine ⟨hright, ?_⟩
  rintro ⟨k, hcut⟩
  exact ((isAreaIgnored_overlaps_iff gapMap (by decide)).1 hright).1 k hcut

/-- An area with data and a hole is ignored for the preallocated extent behind it,
    and an area whose last byte is preallocated is not ignored. -/
theorem not_isAreaIgnored_overlaps :
    (isAreaIgnored gapMap 0 8192 = true ∧
      ¬ ∃ e ∈ gapMap.fmExtents, e.isSkipped ∧ e.Overlaps 0 (0 + 8192)) ∧
    isAreaIgnored oddMap 0 4096 = false ∧
      ∃ e ∈ oddMap.fmExtents, e.isSkipped ∧ e.Overlaps 0 (0 + 4096) := by
  decide

/-- When the extents and the end of the area are aligned and only the last extent has
    the last flag, no skip extent in the area is missed. -/
theorem isAreaIgnored_of_overlaps {m : Fiemap} {g start len : Nat} {k : FiemapExtent}
    (hg : 1 < g) (haligned : ∀ e ∈ m.fmExtents, g ∣ e.feLogical ∧ g ∣ e.feLength)
    (hstop : g ∣ start + len)
    (hlast : ∀ a ∈ m.fmExtents, a.isLast → ∀ e ∈ m.fmExtents, e.feEnd ≤ a.feEnd)
    (hk : k ∈ m.fmExtents) (hskip : k.isSkipped = true) (hlen : 0 < len)
    (hover : k.Overlaps start (start + len)) : isAreaIgnored m start len = true := by
  rw [isAreaIgnored_eq_true_iff]
  rcases exists_looksAt_or_missed hk hskip hover (by omega) with
    ⟨a, ha, haskip, -⟩ | hcut | hpassed
  · exact ⟨a, ha, haskip⟩
  · obtain ⟨-, -, hin, a, ha, -, hle, hend⟩ := hcut
    have hpos := m.positive k hk
    rcases hend with hend | hend
    · have := hlast a ha.mem hend k hk
      unfold FiemapExtent.feEnd at *
      omega
    · -- Two aligned offsets less than a unit apart are the same.
      have hgap : g ∣ start + len - a.feEnd :=
        Nat.dvd_sub hstop (Nat.dvd_add (haligned a ha.mem).1 (haligned a ha.mem).2)
      have := Nat.le_of_dvd (by omega) hgap
      omega
  · obtain ⟨-, -, -, -, -, -, -, hone⟩ := hpassed
    have := Nat.le_of_dvd Nat.one_pos (hone ▸ (haligned k hk).2)
    omega

end Duperemove
