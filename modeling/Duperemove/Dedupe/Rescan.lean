-- SUMMARY: `fiemap_scan_extent`: the physical offset it gives an extent, and when it is the one behind the extent.
import Duperemove.Dedupe.Worker

/-!
# Rescanned extents

After a pass over extents the worker looks up where each extent of the group lies
now and writes it to the hashfile. The lookup takes the start of whatever extent of
the new map comes first, so the offset is right only when one starts where the
extent starts.
-/

namespace Duperemove

/-! ## The function -/

/-- `fiemap_scan_extent`: the return value, and the extent with its `e_poff`.
    `opened` is what `filerec_open` returns, `doFiemap` the map of the open file. -/
def ResultExtent.fiemapScanExtent (opened : Int) (doFiemap : Option Fiemap)
    (extent : ResultExtent) : Int × ResultExtent :=
  if opened ≠ 0 then (opened, extent)
  else
    match doFiemap with
    | none => (-1, extent)
    | some fiemap =>
      match fiemap.getExtent extent.eLoff with
      | none => (-1, extent)
      | some result => (0, { extent with ePoff := result.fePhysical })

/-- What the worker does with it: a new offset on success, nothing otherwise. -/
def rescan (filerecOpen : ResultExtent → Int) (doFiemap : ResultExtent → Option Fiemap)
    (e : ResultExtent) : Option Nat :=
  let scanned := e.fiemapScanExtent (filerecOpen e) (doFiemap e)
  if scanned.1 = 0 then some scanned.2.ePoff else none

/-! ## The address behind an offset -/

/-- The physical address of the byte at `loff`, unless it lies in a hole. -/
def Fiemap.backing (m : Fiemap) (loff : Nat) : Option Nat :=
  (m.fmExtents.find? fun e => e.Covers loff).map fun e => e.fePhysical + (loff - e.feLogical)

theorem Fiemap.backing_of_covers {m : Fiemap} {e : FiemapExtent} {loff : Nat}
    (he : e ∈ m.fmExtents) (hcovers : e.Covers loff) :
    m.backing loff = some (e.fePhysical + (loff - e.feLogical)) := by
  obtain ⟨e', hfound⟩ : ∃ e', m.fmExtents.find? (fun e => e.Covers loff) = some e' := by
    rw [← Option.isSome_iff_exists, List.find?_isSome]
    exact ⟨e, he, decide_eq_true hcovers⟩
  have hcovers' : e'.Covers loff := by
    simpa using List.find?_some hfound
  have hsame := (getExtent_of_covers (List.mem_of_find?_eq_some hfound) hcovers').symm.trans
    (getExtent_of_covers he hcovers)
  rw [backing, hfound, Option.map_some, Option.some.inj hsame]

theorem Fiemap.backing_eq_none {m : Fiemap} {loff : Nat}
    (h : ∀ e ∈ m.fmExtents, ¬ e.Covers loff) : m.backing loff = none := by
  rw [backing, List.find?_eq_none.2 (by simpa using h), Option.map_none]

/-- The rescan of an extent in the map `m` is right: it fails and leaves the extent
    alone in a hole, and otherwise sets `e_poff` to the address behind its start. -/
def ScansBacking (m : Fiemap) (extent : ResultExtent) : Prop :=
  match m.backing extent.eLoff with
  | none => (extent.fiemapScanExtent 0 (some m)).1 ≠ 0 ∧
      (extent.fiemapScanExtent 0 (some m)).2 = extent
  | some addr => extent.fiemapScanExtent 0 (some m) = (0, { extent with ePoff := addr })

section Rescan

variable {m : Fiemap} {extent : ResultExtent}

theorem fiemapScanExtent_none (h : m.getExtent extent.eLoff = none) :
    extent.fiemapScanExtent 0 (some m) = (-1, extent) := by
  simp [ResultExtent.fiemapScanExtent, h]

theorem fiemapScanExtent_some {e : FiemapExtent} (h : m.getExtent extent.eLoff = some e) :
    extent.fiemapScanExtent 0 (some m) = (0, { extent with ePoff := e.fePhysical }) := by
  simp [ResultExtent.fiemapScanExtent, h]

/-- Behind the last extent the rescan fails, as it should. -/
theorem scansBacking_of_none (h : m.getExtent extent.eLoff = none) : ScansBacking m extent := by
  have hno : ∀ e ∈ m.fmExtents, ¬ e.Covers extent.eLoff := fun e he hcovers =>
    absurd hcovers.2 (Nat.not_lt.2 (Fiemap.getExtent_eq_none_iff.1 h e he))
  rw [ScansBacking, Fiemap.backing_eq_none hno, fiemapScanExtent_none h]
  exact ⟨Int.neg_ne_zero.2 Int.one_ne_zero, rfl⟩

/-- Elsewhere it is right only at the start of the extent that is found. -/
theorem scansBacking_of_some {e : FiemapExtent} (h : m.getExtent extent.eLoff = some e) :
    ScansBacking m extent ↔ e.feLogical = extent.eLoff := by
  have he := Fiemap.mem_of_getExtent h
  have hend := Fiemap.lt_feEnd_of_getExtent h
  by_cases hstart : e.feLogical ≤ extent.eLoff
  · rw [ScansBacking, Fiemap.backing_of_covers he ⟨hstart, hend⟩, fiemapScanExtent_some h]
    simp only [Prod.mk.injEq, true_and, ResultExtent.mk.injEq, and_true]
    omega
  · -- The offset lies in a hole, and the next extent behind it is taken.
    have hno : ∀ x ∈ m.fmExtents, ¬ x.Covers extent.eLoff := by
      intro x hx hcovers
      rcases Fiemap.getExtent_feLogical_le h hx hcovers.2 with rfl | hle
      · exact hstart hcovers.1
      · have := hcovers.1
        omega
    rw [ScansBacking, Fiemap.backing_eq_none hno, fiemapScanExtent_some h]
    simp only [ne_eq, not_true_eq_false, false_and, false_iff]
    omega

theorem scansBacking_of_start (h : ∃ e ∈ m.fmExtents, e.feLogical = extent.eLoff) :
    ScansBacking m extent := by
  obtain ⟨e, he, hstart⟩ := h
  have hpos := m.positive e he
  refine (scansBacking_of_some (Fiemap.getExtent_of_covers he ?_)).2 hstart
  unfold FiemapExtent.Covers FiemapExtent.feEnd
  omega

/-- Two extents that were rescanned rightly and got the same offset have the same
    address behind their starts. -/
theorem ScansBacking.shares {m' : Fiemap} {extent' : ResultExtent}
    (h : ScansBacking m extent) (h' : ScansBacking m' extent')
    (hok : (extent.fiemapScanExtent 0 (some m)).1 = 0)
    (hok' : (extent'.fiemapScanExtent 0 (some m')).1 = 0)
    (hsame : (extent.fiemapScanExtent 0 (some m)).2.ePoff =
      (extent'.fiemapScanExtent 0 (some m')).2.ePoff) :
    ∃ addr, m.backing extent.eLoff = some addr ∧ m'.backing extent'.eLoff = some addr := by
  unfold ScansBacking at h h'
  split at h
  · exact absurd hok h.1
  · rename_i addr haddr
    split at h'
    · exact absurd hok' h'.1
    · rename_i addr' haddr'
      rw [h, h'] at hsame
      obtain rfl : addr = addr' := hsame
      exact ⟨addr, haddr, haddr'⟩

end Rescan

/-- The refreshed offset is the one behind the extent, or the rescan rightly fails,
    exactly when no extent of the new map ends behind `e_loff` or one starts there.
    Where it is, equal offsets of two extents mean shared storage. -/
theorem fiemapScanExtent_backing_iff (m : Fiemap) (extent : ResultExtent) :
    (ScansBacking m extent ↔
      (∀ e ∈ m.fmExtents, e.feEnd ≤ extent.eLoff) ∨
        ∃ e ∈ m.fmExtents, e.feLogical = extent.eLoff) ∧
    ∀ m' extent', ScansBacking m extent → ScansBacking m' extent' →
      (extent.fiemapScanExtent 0 (some m)).1 = 0 →
      (extent'.fiemapScanExtent 0 (some m')).1 = 0 →
      (extent.fiemapScanExtent 0 (some m)).2.ePoff =
        (extent'.fiemapScanExtent 0 (some m')).2.ePoff →
      ∃ addr, m.backing extent.eLoff = some addr ∧ m'.backing extent'.eLoff = some addr := by
  refine ⟨?_, fun m' extent' h h' hok hok' hsame => h.shares h' hok hok' hsame⟩
  cases hfound : m.getExtent extent.eLoff with
  | none =>
    exact iff_of_true (scansBacking_of_none hfound) (.inl (Fiemap.getExtent_eq_none_iff.1 hfound))
  | some e =>
    have he := Fiemap.mem_of_getExtent hfound
    have hend := Fiemap.lt_feEnd_of_getExtent hfound
    constructor
    · exact fun h => .inr ⟨e, he, (scansBacking_of_some hfound).1 h⟩
    · rintro (hall | hstart)
      · exact absurd hend (Nat.not_lt.2 (hall e he))
      · exact scansBacking_of_start hstart

/-- Two blocks inside one extent, as after a dedupe that merged their extents. -/
def mergedExtent : FiemapExtent := ⟨0, 1048576, 8192, fiemapExtentShared ||| fiemapExtentLast⟩

def mergedMap : Fiemap where
  fmExtents := [mergedExtent]
  positive := by decide
  fits := by decide
  sorted := by decide

def blockAt (loff : Nat) : ResultExtent := allocExtent ⟨7, "/mnt/a", 12, 8192⟩ loff

/-- The second block gets the offset of the first one, which does not back it. -/
theorem not_scansBacking_mergedMap :
    ¬ ScansBacking mergedMap (blockAt 4096) ∧
    ((blockAt 0).fiemapScanExtent 0 (some mergedMap)).2.ePoff =
      ((blockAt 4096).fiemapScanExtent 0 (some mergedMap)).2.ePoff ∧
    mergedMap.backing 0 ≠ mergedMap.backing 4096 := by
  have hfirst : mergedMap.getExtent (blockAt 0).eLoff = some mergedExtent := by decide
  have hsecond : mergedMap.getExtent (blockAt 4096).eLoff = some mergedExtent := by decide
  refine ⟨(scansBacking_of_some hsecond).not.2 (by decide), ?_, by decide⟩
  rw [fiemapScanExtent_some hfirst, fiemapScanExtent_some hsecond]

/-! ## In the hashfile -/

/-- After a pass over extents each row is the old one, or it has the offset of the
    rescan of an extent of the group at its place. -/
theorem mem_updateHashfile_rescan {scan : ResultExtent → Option Nat} {t : Tables}
    {extents : List ResultExtent} {x : ExtentRow}
    (hx : x ∈ (updateHashfile false scan t extents).extents) :
    x ∈ t.extents ∨ ∃ e ∈ extents, x.fileid = e.eFile.fileid ∧ x.loff = e.eLoff ∧
      scan e = some x.poff := by
  induction extents generalizing t with
  | nil => exact .inl hx
  | cons e extents ih =>
    rcases ih (t := updateHashfile false scan t [e]) hx with hold | ⟨a, ha, hrow⟩
    · simp only [updateHashfile, List.foldl_cons, List.foldl_nil, Bool.false_eq_true,
        if_false] at hold
      cases hscan : scan e with
      | none => exact .inl (by simpa [hscan] using hold)
      | some poff =>
        simp only [hscan, Tables.updateExtentPoff, List.mem_map] at hold
        obtain ⟨y, hy, rfl⟩ := hold
        split
        · rename_i hplace
          exact .inr ⟨e, List.mem_cons_self, hplace.1, hplace.2, hscan⟩
        · exact .inl hy
    · exact .inr ⟨a, List.mem_cons_of_mem _ ha, hrow⟩

/-- When every extent of the group starts an extent of its new map, each row that
    changed has the address behind its start. -/
theorem updateHashfile_rescan_backing {filerecOpen : ResultExtent → Int}
    {doFiemap : ResultExtent → Option Fiemap} {t : Tables} {extents : List ResultExtent}
    {x : ExtentRow}
    (hstart : ∀ e ∈ extents, ∀ m, doFiemap e = some m →
      ∃ a ∈ m.fmExtents, a.feLogical = e.eLoff)
    (hx : x ∈ (updateHashfile false (rescan filerecOpen doFiemap) t extents).extents) :
    x ∈ t.extents ∨ ∃ e ∈ extents, ∃ m, x.fileid = e.eFile.fileid ∧ doFiemap e = some m ∧
      m.backing x.loff = some x.poff := by
  rcases mem_updateHashfile_rescan hx with hold | ⟨e, he, hfile, hloff, hscan⟩
  · exact .inl hold
  · refine .inr ⟨e, he, ?_⟩
    simp only [rescan] at hscan
    split at hscan
    · rename_i hok
      have hopen : filerecOpen e = 0 := by
        by_contra hne
        simp [ResultExtent.fiemapScanExtent, hne] at hok
      cases hmap : doFiemap e with
      | none => simp [ResultExtent.fiemapScanExtent, hopen, hmap] at hok
      | some m =>
        refine ⟨m, hfile, rfl, ?_⟩
        rw [hopen, hmap] at hscan hok
        have hright := scansBacking_of_start (hstart e he m hmap)
        unfold ScansBacking at hright
        split at hright
        · exact absurd hok hright.1
        · rename_i addr haddr
          rw [hright] at hscan
          rw [hloff, haddr]
          exact hscan
    · cases hscan

end Duperemove
