-- SUMMARY: The extent rows of a plain scan of a file without holes: which extents have one, and with which digest.
import Duperemove.FileScan.Stretches

/-!
# Extent rows

On a map that tiles the file, each stretch is its extent. The scan stores the hashed
extents that start inside the file and either end inside it or have the last flag: all
of them when the last extent starts inside the file. An extent that reaches over the
end of the file with another one behind it is not stored.
-/

namespace Duperemove

variable {Digest : Type}

/-- The entry stored for an extent of the content `c`. -/
def extentRow (job : ScanJob) (h : Xxh Digest) (c : List Byte) (e : FiemapExtent) :
    ExtentCsum Digest :=
  if e.isSkipped then ⟨0, 0, 0, none⟩
  else
    ⟨e.feLogical, e.fePhysical, e.feLength,
      some (h.xxh128 (c.extract e.feLogical (min e.feEnd job.filesize)))⟩

/-- The scan gets to the extent and to the offset where it is stored. -/
def FiemapExtent.IsStored (job : ScanJob) (e : FiemapExtent) : Prop :=
  e.feLogical < job.filesize ∧ (e.isLast ∨ e.feEnd ≤ job.filesize)

instance (job : ScanJob) (e : FiemapExtent) : Decidable (e.IsStored job) :=
  inferInstanceAs (Decidable (_ ∧ _))

/-- The rows with a length are those of the hashed extents. -/
theorem filter_extentRow {job : ScanJob} (h : Xxh Digest) (c : List Byte)
    {extents : List FiemapExtent} (hpos : ∀ e ∈ extents, 0 < e.feLength) :
    (extents.map (extentRow job h c)).filter (fun row => row.len ≠ 0) =
      (extents.filter fun e => !e.isSkipped).map (extentRow job h c) := by
  rw [List.filter_map]
  congr 1
  apply List.filter_congr
  intro e he
  have hlen := hpos e he
  by_cases hskip : e.isSkipped
  · simp [extentRow, hskip]
  · simp [extentRow, hskip, Nat.pos_iff_ne_zero.1 hlen]

theorem Fiemap.Tiles.stretches {m : Fiemap} {filesize : Nat} (h : m.Tiles filesize) :
    stretches 0 m.fmExtents = m.fmExtents.map fun e => ⟨e.feLogical, e⟩ := by
  have hfirst := h.first
  have hgapless := h.gapless
  cases heq : m.fmExtents with
  | nil => rfl
  | cons e extents =>
    rw [heq] at hfirst hgapless
    have hzero : e.feLogical = 0 := Option.some.inj hfirst
    rw [← stretches_gapless hgapless, hzero]

/-- On a map without holes the stored stretches are the stored extents. -/
theorem Fiemap.Tiles.stretchRows {job : ScanJob} (htiles : job.fiemap.Tiles job.filesize)
    (h : Xxh Digest) (c : List Byte) :
    ((Duperemove.stretches 0 job.fiemap.fmExtents).filter fun p => p.IsStored job).map
        (stretchRow job h c) =
      (job.fiemap.fmExtents.filter fun e => e.IsStored job).map (extentRow job h c) := by
  rw [htiles.stretches, List.filter_map, List.map_map]
  rfl

/-- The extent rows that the database gets when the file is tiled by the map and the
    scan never fast-forwards, for every read schedule. -/
theorem csumWholeFile_storedRows {job : ScanJob} (h : Xxh Digest) {c : List Byte}
    (buffer : ThreadBuffer) (hlen : c.length = job.filesize) (hreads : ReadsFile job c)
    (htiles : job.fiemap.Tiles job.filesize)
    (hothers : ∀ e ∈ job.fiemap.fmExtents.dropLast, e.isLast = false)
    (hplain : job.filesize < readBufLen ∨ ∀ e ∈ job.fiemap.fmExtents, e.isSkipped = false) :
    ∃ commit, csumWholeFile job h buffer = some commit ∧
      commit.extents.filter (fun row => row.len ≠ 0) =
        if job.options.onlyWholeFiles then []
        else (job.fiemap.fmExtents.filter fun e => !e.isSkipped && e.IsStored job).map
          (extentRow job h c) := by
  obtain ⟨commit, hrun, hrows⟩ :=
    csumWholeFile_stretches h buffer hlen hreads htiles.last hothers hplain
  refine ⟨commit, hrun, ?_⟩
  rw [hrows, htiles.stretchRows]
  split
  case isTrue => rfl
  case isFalse =>
    rw [← List.filter_filter]
    exact filter_extentRow h c fun e he => job.fiemap.positive e (List.mem_of_mem_filter he)

/-- Every extent of a map is stored when the last one is flagged and starts inside the
    file. -/
theorem isStored_of_last_starts {job : ScanJob} {last : FiemapExtent}
    (hlast : job.fiemap.fmExtents.getLast? = some last) (hflag : last.isLast = true)
    (hstart : last.feLogical < job.filesize) {e : FiemapExtent}
    (he : e ∈ job.fiemap.fmExtents) : e.IsStored job := by
  rw [List.getLast?_eq_some_iff] at hlast
  obtain ⟨front, heq⟩ := hlast
  have hsorted := job.fiemap.sorted
  rw [heq, List.pairwise_append] at hsorted
  rw [heq, List.mem_append, List.mem_singleton] at he
  rcases he with hfront | rfl
  · have hle := hsorted.2.2 e hfront last (List.mem_singleton.2 rfl)
    refine ⟨?_, .inr (by omega)⟩
    unfold FiemapExtent.feEnd at hle
    omega
  · exact ⟨hstart, .inl hflag⟩

/-- The extent rows that a scan commits when its file is tiled by the map and it
    never fast-forwards: for every read schedule one row per hashed extent, in
    map order, with the digest of the extent's bytes inside the file. Without
    extent hashing there are none. -/
theorem csumWholeFile_extents {job : ScanJob} (h : Xxh Digest) {c : List Byte}
    (buffer : ThreadBuffer) (hlen : c.length = job.filesize) (hreads : ReadsFile job c)
    (htiles : job.fiemap.Tiles job.filesize)
    (hstart : ∀ e, job.fiemap.fmExtents.getLast? = some e → e.feLogical < job.filesize)
    (hothers : ∀ e ∈ job.fiemap.fmExtents.dropLast, e.isLast = false)
    (hplain : job.filesize < readBufLen ∨ ∀ e ∈ job.fiemap.fmExtents, e.isSkipped = false) :
    ∃ commit, csumWholeFile job h buffer = some commit ∧
      commit.extents.filter (fun row => row.len ≠ 0) =
        if job.options.onlyWholeFiles then []
        else (job.fiemap.fmExtents.filter fun e => !e.isSkipped).map fun e =>
          ⟨e.feLogical, e.fePhysical, e.feLength,
            some (h.xxh128
              (c.extract e.feLogical (min (e.feLogical + e.feLength) job.filesize)))⟩ := by
  obtain ⟨commit, hrun, hrows⟩ :=
    csumWholeFile_storedRows h buffer hlen hreads htiles hothers hplain
  refine ⟨commit, hrun, ?_⟩
  obtain ⟨last, hlast, hflag, -⟩ := htiles.last
  have hall : (job.fiemap.fmExtents.filter fun e => !e.isSkipped && e.IsStored job) =
      job.fiemap.fmExtents.filter fun e => !e.isSkipped := by
    refine List.filter_congr fun e he => ?_
    have hstored := isStored_of_last_starts hlast hflag (hstart last hlast) he
    rw [decide_eq_true hstored, Bool.and_true]
  rw [hrows, hall]
  split
  case isTrue => rfl
  case isFalse =>
    apply List.map_congr_left
    intro e he
    have hskip : e.isSkipped = false := by simpa using (List.mem_filter.1 he).2
    simp [extentRow, hskip, FiemapExtent.feEnd]

/-- A map with an ignored extent between two hashed ones. -/
def mixedFiemap : Fiemap where
  fmExtents :=
    [⟨0, 65536, 4096, 0⟩, ⟨4096, 0, 4096, fiemapExtentUnwritten⟩,
      ⟨8192, 69632, 4096, fiemapExtentLast⟩]
  positive := by decide
  fits := by decide
  sorted := by decide

/-- A file of two blocks and a partial one, read a thousand bytes at a time. -/
def mixedJob : ScanJob :=
  .ofContent {} 4096 mixedFiemap (List.replicate 9000 7) 1000
    minBlocksize_le_page page_le_maxBlocksize (by rw [List.length_replicate]; decide)
    (by rw [List.length_replicate]; decide)

theorem mixedJob_filesize : mixedJob.filesize = 9000 := List.length_replicate

theorem csumWholeFile_extents_mixedJob :
    ∃ commit, csumWholeFile mixedJob Xxh.message .fresh = some commit ∧
      commit.extents.filter (fun row => row.len ≠ 0) =
        [⟨0, 65536, 4096, some (List.replicate 4096 7)⟩,
          ⟨8192, 69632, 4096, some (List.replicate 808 7)⟩] := by
  have htiles : mixedJob.fiemap.Tiles mixedJob.filesize := by
    refine ⟨rfl, by decide, _, rfl, rfl, ?_⟩
    rw [mixedJob_filesize]
    decide
  have hstart : ∀ e, mixedJob.fiemap.fmExtents.getLast? = some e →
      e.feLogical < mixedJob.filesize := by
    intro e he
    cases he
    rw [mixedJob_filesize]
    decide
  obtain ⟨commit, hrun, hrows⟩ := @csumWholeFile_extents _ mixedJob Xxh.message
    (List.replicate 9000 7) .fresh rfl
    (readsFile_ofContent (by decide)) htiles hstart (by decide)
    (.inl (by rw [mixedJob_filesize]; decide))
  refine ⟨commit, hrun, ?_⟩
  have hhashed : (mixedJob.fiemap.fmExtents.filter fun e => !e.isSkipped) =
      [⟨0, 65536, 4096, 0⟩, ⟨8192, 69632, 4096, fiemapExtentLast⟩] := by decide
  rw [hrows, mixedJob_filesize, hhashed]
  simp only [List.map_cons, List.map_nil, List.extract_eq_take_drop, List.drop_replicate,
    List.take_replicate, Xxh.message, id_eq]
  rfl

-- ---------------------------------------------------------------------------
-- Extents that reach over the end of the file
-- ---------------------------------------------------------------------------

/-- The row was stored for the extent. -/
def ExtentCsum.IsRowOf (row : ExtentCsum Digest) (e : FiemapExtent) : Prop :=
  row.loff = e.feLogical ∧ row.poff = e.fePhysical ∧ row.len = e.feLength

instance (row : ExtentCsum Digest) (e : FiemapExtent) : Decidable (row.IsRowOf e) :=
  inferInstanceAs (Decidable (_ ∧ _))

/-- One row for every hashed extent with a byte inside the file, and none for an extent
    behind the file. -/
def RowPerExtent (job : ScanJob) (rows : List (ExtentCsum Digest)) : Prop :=
  ∀ e ∈ job.fiemap.fmExtents,
    (e.isSkipped = false → e.feLogical < job.filesize →
      rows.countP (fun row => row.IsRowOf e) = 1) ∧
    (job.filesize ≤ e.feLogical → rows.countP (fun row => row.IsRowOf e) = 0)

/-- Two extents of a map that start at the same offset are the same. -/
theorem Fiemap.eq_of_feLogical_eq {m : Fiemap} {a b : FiemapExtent} (ha : a ∈ m.fmExtents)
    (hb : b ∈ m.fmExtents) (heq : a.feLogical = b.feLogical) : a = b := by
  have hget : ∀ e ∈ m.fmExtents, m.getExtent e.feLogical = some e := by
    intro e he
    obtain ⟨before, after, hsplit⟩ := List.append_of_mem he
    exact Fiemap.getExtent_feLogical hsplit
  have hfound := hget a ha
  rw [heq, hget b hb] at hfound
  exact (Option.some.inj hfound).symm

theorem Fiemap.nodup (m : Fiemap) : m.fmExtents.Nodup := by
  refine m.sorted.imp_of_mem fun {a b} ha _ hle heq => ?_
  have hpos := m.positive a ha
  rw [← heq, FiemapExtent.feEnd] at hle
  omega

theorem extentRow_isRowOf_iff {job : ScanJob} (h : Xxh Digest) (c : List Byte)
    {a e : FiemapExtent} (ha : a ∈ job.fiemap.fmExtents) (he : e ∈ job.fiemap.fmExtents) :
    (extentRow job h c a).IsRowOf e ↔ a.isSkipped = false ∧ a = e := by
  have hpos := job.fiemap.positive e he
  cases hskip : a.isSkipped with
  | true =>
    refine iff_of_false (fun hrow => ?_) (by simp)
    have hlen := hrow.2.2
    simp only [extentRow, hskip, if_true] at hlen
    omega
  | false =>
    simp only [extentRow, hskip, ExtentCsum.IsRowOf, Bool.false_eq_true, if_false, true_and]
    constructor
    · rintro ⟨hloff, -, -⟩
      exact Fiemap.eq_of_feLogical_eq ha he hloff
    · rintro rfl
      exact ⟨rfl, rfl, rfl⟩

/-- An extent has one row when it is hashed and stored, else none. -/
theorem countP_isRowOf {job : ScanJob} (h : Xxh Digest) (c : List Byte) {e : FiemapExtent}
    (he : e ∈ job.fiemap.fmExtents) :
    ((job.fiemap.fmExtents.filter fun a => a.IsStored job).map (extentRow job h c)).countP
        (fun row => row.IsRowOf e) =
      if e.isSkipped = false ∧ e.IsStored job then 1 else 0 := by
  rw [List.countP_map]
  have hrow : ∀ a ∈ job.fiemap.fmExtents.filter (fun a => a.IsStored job),
      ((extentRow job h c a).IsRowOf e ↔ a.isSkipped = false ∧ a = e) := fun a ha =>
    extentRow_isRowOf_iff h c (List.mem_of_mem_filter ha) he
  cases hskip : e.isSkipped with
  | true =>
    rw [if_neg (by simp), List.countP_eq_zero]
    intro a ha hyes
    obtain ⟨hno, rfl⟩ := (hrow a ha).1 (of_decide_eq_true hyes)
    rw [hskip] at hno
    cases hno
  | false =>
    have hcount : (job.fiemap.fmExtents.filter fun a => a.IsStored job).countP
        ((fun row => decide (row.IsRowOf e)) ∘ extentRow job h c) =
          (job.fiemap.fmExtents.filter fun a => a.IsStored job).count e := by
      refine List.countP_congr fun a ha => ?_
      rw [Function.comp_apply, decide_eq_true_iff, hrow a ha, beq_iff_eq]
      refine ⟨fun hyes => hyes.2, ?_⟩
      rintro rfl
      exact ⟨hskip, rfl⟩
    rw [hcount, List.Nodup.count (job.fiemap.nodup.filter _)]
    simp [he]

/-- Every extent with data in the file has its row exactly when extents are hashed and
    each of them ends inside the file or has the last flag. -/
theorem csumWholeFile_rowPerExtent_iff {job : ScanJob} (h : Xxh Digest) {c : List Byte}
    (buffer : ThreadBuffer) (hlen : c.length = job.filesize) (hreads : ReadsFile job c)
    (htiles : job.fiemap.Tiles job.filesize)
    (hothers : ∀ e ∈ job.fiemap.fmExtents.dropLast, e.isLast = false)
    (hsmall : job.filesize < readBufLen) :
    ∃ commit, csumWholeFile job h buffer = some commit ∧
      (RowPerExtent job commit.extents ↔
        ∀ e ∈ job.fiemap.fmExtents, e.isSkipped = false → e.feLogical < job.filesize →
          job.options.onlyWholeFiles = false ∧ (e.isLast ∨ e.feEnd ≤ job.filesize)) := by
  obtain ⟨commit, hrun, hrows⟩ :=
    csumWholeFile_stretches h buffer hlen hreads htiles.last hothers (.inl hsmall)
  refine ⟨commit, hrun, ?_⟩
  have hcount : ∀ e ∈ job.fiemap.fmExtents, commit.extents.countP (fun row => row.IsRowOf e) =
      if job.options.onlyWholeFiles = false ∧ e.isSkipped = false ∧ e.IsStored job then 1
      else 0 := by
    intro e he
    rw [hrows, htiles.stretchRows]
    cases hwhole : job.options.onlyWholeFiles with
    | true => simp
    | false => simp only [Bool.false_eq_true, if_false, true_and, countP_isRowOf h c he]
  constructor
  · intro hall e he hskip hin
    have hone := (hall e he).1 hskip hin
    rw [hcount e he] at hone
    split at hone
    case isTrue hstored => exact ⟨hstored.1, hstored.2.2.2⟩
    case isFalse => cases hone
  · intro hall e he
    refine ⟨fun hskip hin => ?_, fun hbehind => ?_⟩
    · obtain ⟨hwhole, hend⟩ := hall e he hskip hin
      rw [hcount e he, if_pos ⟨hwhole, hskip, hin, hend⟩]
    · rw [hcount e he, if_neg]
      rintro ⟨-, -, hin, -⟩
      omega

theorem csumWholeFile_rowPerExtent_mixedJob :
    ∃ commit, csumWholeFile mixedJob Xxh.message .fresh = some commit ∧
      RowPerExtent mixedJob commit.extents := by
  have htiles : mixedJob.fiemap.Tiles mixedJob.filesize := by
    refine ⟨rfl, by decide, _, rfl, rfl, ?_⟩
    rw [mixedJob_filesize]
    decide
  obtain ⟨commit, hrun, hiff⟩ := @csumWholeFile_rowPerExtent_iff _ mixedJob Xxh.message
    (List.replicate 9000 7) .fresh rfl (readsFile_ofContent (by decide)) htiles (by decide)
    (by rw [mixedJob_filesize]; decide)
  refine ⟨commit, hrun, hiff.2 ?_⟩
  rw [mixedJob_filesize]
  decide

/-- Two extents of data and space that was preallocated behind them. -/
def straddlingFiemap : Fiemap where
  fmExtents :=
    [⟨0, 65536, 4096, 0⟩, ⟨4096, 131072, 4096, 0⟩,
      ⟨8192, 262144, 4096, fiemapExtentUnwritten ||| fiemapExtentLast⟩]
  positive := by decide
  fits := by decide
  sorted := by decide

/-- A file that ends inside its second extent. -/
def straddlingJob : ScanJob :=
  .ofContent {} 4096 straddlingFiemap (List.replicate 5000 9) 5000
    minBlocksize_le_page page_le_maxBlocksize (by rw [List.length_replicate]; decide)
    (by rw [List.length_replicate]; decide)

theorem straddlingJob_filesize : straddlingJob.filesize = 5000 := List.length_replicate

/-- The extent that the file ends in has no row. -/
theorem not_rowPerExtent_straddlingJob :
    straddlingJob.fiemap.Tiles straddlingJob.filesize ∧
      (∀ e ∈ straddlingJob.fiemap.fmExtents.dropLast, e.isLast = false) ∧
      straddlingJob.filesize < readBufLen ∧ ReadsFile straddlingJob (List.replicate 5000 9) ∧
      ∃ commit, csumWholeFile straddlingJob Xxh.message .fresh = some commit ∧
        ¬ RowPerExtent straddlingJob commit.extents := by
  have hreads : ReadsFile straddlingJob (List.replicate 5000 9) := readsFile_ofContent (by decide)
  have htiles : straddlingJob.fiemap.Tiles straddlingJob.filesize := by
    refine ⟨rfl, by decide, _, rfl, rfl, ?_⟩
    rw [straddlingJob_filesize]
    decide
  have hsmall : straddlingJob.filesize < readBufLen := by
    rw [straddlingJob_filesize]
    decide
  obtain ⟨commit, hrun, hrows⟩ := @csumWholeFile_stretches _ straddlingJob Xxh.message
    (List.replicate 5000 9) .fresh rfl hreads htiles.last (by decide) (.inl hsmall)
  refine ⟨htiles, by decide, hsmall, hreads, commit, hrun, fun hall => ?_⟩
  have hmem : (⟨4096, 131072, 4096, 0⟩ : FiemapExtent) ∈ straddlingJob.fiemap.fmExtents := by
    decide
  have hone := (hall _ hmem).1 rfl (by rw [straddlingJob_filesize]; decide)
  rw [hrows, htiles.stretchRows, if_neg (by decide), countP_isRowOf _ _ hmem, if_neg] at hone
  · cases hone
  · rintro ⟨-, -, hend⟩
    rw [straddlingJob_filesize] at hend
    exact absurd hend (by decide)

end Duperemove
