-- SUMMARY: The split of the extents into duplicates and candidates for the block-wise search.
import Mathlib.Data.List.Dedup
import Mathlib.Data.List.Perm.Subperm
import Duperemove.Dbfile.Queries

/-!
# Duplicates and other extents

An extent should go one of two ways: the load takes it, when another extent has its
digest and length, or the block-wise search looks inside it. The two queries do not
agree on what a duplicate is. `GET_DUPLICATE_EXTENTS` groups by digest and length, and
`GET_NONDUPE_EXTENTS` counts the rows with the digest alone. So an extent whose digest
only occurs with other lengths goes neither way.
-/

namespace Duperemove

variable {db : Hashfile} {x y : ExtentRow}

/-- Another extent has the same digest and the same length. -/
def ExtentRow.IsDuplicate (t : Tables) (x : ExtentRow) : Prop :=
  ∃ y ∈ t.extents, y ≠ x ∧ y.digest = x.digest ∧ y.len = x.len

instance (t : Tables) (x : ExtentRow) : Decidable (x.IsDuplicate t) :=
  inferInstanceAs (Decidable (∃ y ∈ t.extents, y ≠ x ∧ y.digest = x.digest ∧ y.len = x.len))

/-- The query for the extents of a file returns those that are no duplicates. -/
def SplitsExtents (t : Tables) : Prop :=
  ∀ x ∈ t.extents, x ∈ getNondupeExtents t x.fileid ↔ ¬ x.IsDuplicate t

theorem Hashfile.extents_nodup (db : Hashfile) : db.extents.Nodup :=
  .of_map _ db.constraints.extent_unique

-- ---------------------------------------------------------------------------
-- What the two queries return
-- ---------------------------------------------------------------------------

/-- A row is counted alone when no other one is counted. -/
theorem one_eq_length_filter_iff {ρ : Type} {rows : List ρ} (hnodup : rows.Nodup) {p : ρ → Bool}
    {r : ρ} (hr : r ∈ rows) (hp : p r = true) :
    1 = (rows.filter p).length ↔ ∀ r' ∈ rows, p r' = true → r' = r := by
  have hin : r ∈ rows.filter p := List.mem_filter.2 ⟨hr, hp⟩
  constructor
  · intro hone r' hr' hp'
    obtain ⟨a, ha⟩ := List.length_eq_one_iff.1 hone.symm
    have hin' : r' ∈ rows.filter p := List.mem_filter.2 ⟨hr', hp'⟩
    rw [ha, List.mem_singleton] at hin hin'
    rw [hin, hin']
  · intro honly
    have hperm : (rows.filter p).Perm [r] := by
      rw [List.perm_ext_iff_of_nodup (hnodup.filter p) (List.nodup_singleton r)]
      intro r'
      rw [List.mem_filter, List.mem_singleton]
      constructor
      · rintro ⟨hr', hp'⟩
        exact honly r' hr' hp'
      · rintro rfl
        exact ⟨hr, hp⟩
    exact hperm.length_eq.symm

/-- The query for the other extents returns those whose digest occurs once. -/
theorem mem_getNondupeExtents (hx : x ∈ db.extents) :
    x ∈ getNondupeExtents db.toTables x.fileid ↔ ∀ y ∈ db.extents, y.digest = x.digest → y = x := by
  have hcount : 1 = (Sql.whereTrue (fun e => Sql.eq (some e.digest) (some x.digest))
      db.extents).length ↔ ∀ y ∈ db.extents, y.digest = x.digest → y = x := by
    rw [Sql.whereTrue, one_eq_length_filter_iff db.extents_nodup hx]
    · simp only [decide_eq_true_eq, Sql.eq_some_eq_true]
    · exact decide_eq_true (Sql.eq_some_eq_true.2 rfl)
  simp only [getNondupeExtents, List.mem_map, Sql.mem_whereTrue, Sql.mem_join, Sql.and_eq_true,
    Sql.eq_some_eq_true]
  constructor
  · rintro ⟨⟨e, f⟩, ⟨-, -, hone⟩, rfl⟩
    exact hcount.1 hone
  · intro honly
    obtain ⟨f, hf, hid⟩ := db.constraints.extent_fileid x hx
    exact ⟨(x, f), ⟨⟨hx, hf, hid⟩, hid, hcount.2 honly⟩, rfl⟩

/-- A group with another row has two. -/
theorem two_le_length_iff {ρ : Type} {rows : List ρ} (hnodup : rows.Nodup) {r : ρ}
    (hr : r ∈ rows) : 2 ≤ rows.length ↔ ∃ r' ∈ rows, r' ≠ r := by
  constructor
  · intro htwo
    by_contra hno
    push Not at hno
    have hone := (one_eq_length_filter_iff hnodup (p := fun _ => true) hr rfl).2
      fun r' hr' _ => hno r' hr'
    rw [List.filter_true] at hone
    omega
  · rintro ⟨r', hr', hne⟩
    have hpair : [r', r].Nodup := List.nodup_cons.2 ⟨by simpa using hne, List.nodup_singleton r⟩
    have hsub : [r', r] ⊆ rows := by
      rintro a ha
      rcases List.mem_pair.1 ha with rfl | rfl
      · exact hr'
      · exact hr
    exact (List.subperm_of_subset hpair hsub).length_le

/-- A batch loads a row when it sees another one with its key, and one of them is its
    own. -/
theorem mem_getDuplicateExtents {seq : Nat} :
    x ∈ (getDuplicateExtents db.toTables seq).map Prod.fst ↔
      x ∈ sharedExtents db.toTables seq x.digest x.len ∧
      (∃ y ∈ sharedExtents db.toTables seq x.digest x.len, y ≠ x) ∧
      ∃ y ∈ sharedExtents db.toTables seq x.digest x.len, y.isCurrent db.toTables seq := by
  have hloads : x ∈ (getDuplicateExtents db.toTables seq).map Prod.fst ↔
      x ∈ ((getDuplicateExtents db.toTables seq).filter
        (fun p => decide (p.1.digest = x.digest ∧ p.1.len = x.len))).map Prod.fst := by
    simp only [List.mem_map, List.mem_filter, decide_eq_true_eq]
    constructor
    · rintro ⟨p, hp, rfl⟩
      exact ⟨p, ⟨hp, rfl, rfl⟩, rfl⟩
    · rintro ⟨p, ⟨hp, -⟩, rfl⟩
      exact ⟨p, hp, rfl⟩
  have hnodup : (sharedExtents db.toTables seq x.digest x.len).Nodup := db.extents_nodup.filter _
  rw [hloads, map_fst_filter_getDuplicateExtents]
  constructor
  · intro hx
    split at hx
    case isTrue hload => exact ⟨hx, (two_le_length_iff hnodup hx).1 hload.1, hload.2⟩
    case isFalse => cases hx
  · rintro ⟨hx, hother, hcurrent⟩
    rw [if_pos ⟨(two_le_length_iff hnodup hx).2 hother, hcurrent⟩]
    exact hx

/-- Some batch loads exactly the duplicates, as long as the numbers of the batches are
    not negative. -/
theorem exists_batch_iff_isDuplicate (hseq : ∀ f ∈ db.files, 0 ≤ f.dedupeSeq)
    (hx : x ∈ db.extents) :
    (∃ seq, x ∈ (getDuplicateExtents db.toTables seq).map Prod.fst) ↔
      x.IsDuplicate db.toTables := by
  simp only [mem_getDuplicateExtents, sharedExtents, List.mem_filter, decide_eq_true_eq]
  constructor
  · rintro ⟨seq, -, ⟨y, ⟨hy, hdigest, hlen, -⟩, hne⟩, -⟩
    exact ⟨y, hy, hne, hdigest, hlen⟩
  · rintro ⟨y, hy, hne, hdigest, hlen⟩
    obtain ⟨f, hf, hid⟩ := db.constraints.extent_fileid x hx
    obtain ⟨f', hf', hid'⟩ := db.constraints.extent_fileid y hy
    have hpos := hseq f hf
    have hpos' := hseq f' hf'
    -- The later of the two files is in the batch.
    refine ⟨(max f.dedupeSeq f'.dedupeSeq).toNat, ⟨hx, trivial, trivial, f, hf, hid, by omega⟩,
      ⟨y, ⟨hy, hdigest, hlen, f', hf', hid', by omega⟩, hne⟩, ?_⟩
    rcases Int.le_total f.dedupeSeq f'.dedupeSeq with hle | hle
    · exact ⟨y, ⟨hy, hdigest, hlen, f', hf', hid', by omega⟩, f', hf', hid', by omega⟩
    · exact ⟨x, ⟨hx, rfl, rfl, f, hf, hid, by omega⟩, f, hf, hid, by omega⟩

-- ---------------------------------------------------------------------------
-- The split
-- ---------------------------------------------------------------------------

/-- The extents are split right exactly when an extent that has its digest in common
    with others has the length in common with one of them. -/
theorem getNondupeExtents_splits_iff (db : Hashfile) :
    SplitsExtents db.toTables ↔
      ∀ x ∈ db.extents, ∀ y ∈ db.extents, y ≠ x → y.digest = x.digest →
        ∃ z ∈ db.extents, z ≠ x ∧ z.digest = x.digest ∧ z.len = x.len := by
  unfold SplitsExtents
  refine forall₂_congr fun x hx => ?_
  rw [mem_getNondupeExtents hx]
  constructor
  · intro hsplits y hy hne hdigest
    by_contra hno
    exact hne (hsplits.2 hno y hy hdigest)
  · intro hkey
    constructor
    · rintro honly ⟨y, hy, hne, hdigest, -⟩
      exact hne (honly y hy hdigest)
    · intro hno y hy hdigest
      by_contra hne
      exact hno (hkey y hy hne hdigest)

/-- Two files with a common digest at extents of different lengths. -/
def unevenExtents : Hashfile where
  files := [⟨1, "/a", 10, 0, 4096, 5, 1, none, some 0⟩, ⟨2, "/b", 11, 0, 4096, 5, 1, none, some 0⟩]
  extents := [⟨Vector.replicate digestLen 7, 1, 0, 8192, 4096⟩,
    ⟨Vector.replicate digestLen 7, 2, 0, 65536, 8192⟩]
  blocks := []
  constraints := by constructor <;> decide

/-- Neither query returns them. -/
theorem not_splitsExtents_unevenExtents :
    ¬ SplitsExtents unevenExtents.toTables ∧
    ∀ fileid ∈ [1, 2], getNondupeExtents unevenExtents.toTables fileid = [] := by
  have hnone : ∀ fileid ∈ [1, 2], getNondupeExtents unevenExtents.toTables fileid = [] := by decide
  refine ⟨fun hsplits => ?_, hnone⟩
  have hno : ¬ ExtentRow.IsDuplicate unevenExtents.toTables
      ⟨Vector.replicate digestLen 7, 1, 0, 8192, 4096⟩ := by decide
  have hin := (hsplits _ (by decide)).2 hno
  rw [hnone 1 (by decide)] at hin
  cases hin

end Duperemove
