-- SUMMARY: The queries for duplicate files, extents and blocks, and what they select.
import Duperemove.Dbfile.Tables
import Duperemove.Lib.Sql

/-!
# Queries for duplicates

`GET_DUPLICATE_FILES` and its siblings are three nested selects of the same
shape: the keys of the current batch, the keys among these that occur more than
once so far, and the rows with such a key. A query keeps the rows with a given
key all together or drops them all, and that is how it is specified here.
-/

namespace Duperemove

-- ---------------------------------------------------------------------------
-- Three nested selects
-- ---------------------------------------------------------------------------

section Nested

variable {ρ α β : Type} [DecidableEq α] [DecidableEq β]

/-- The shape of the two queries: `older` is the condition of the two outer
    selects, `current` the one of the innermost. -/
def selectDuplicates (key : ρ → Option α × Option β) (older current : ρ → Sql.Truth)
    (rows : List ρ) : List ρ :=
  let keys := (Sql.whereTrue current rows).map key
  let shared := Sql.groupByHaving key 1
    (Sql.whereTrue (fun r => Sql.and (older r) (Sql.isIn (key r) keys)) rows)
  Sql.whereTrue (fun r => Sql.and (older r) (Sql.isIn (key r) shared)) rows

variable {key : ρ → Option α × Option β} {older current : ρ → Sql.Truth} {rows : List ρ}

/-- The rows that the outer selects see under one key. -/
def sharing (key : ρ → Option α × Option β) (older : ρ → Sql.Truth) (rows : List ρ) (a : α)
    (b : β) : List ρ :=
  rows.filter fun r => decide (older r = some true ∧ key r = (some a, some b))

/-- A select with `key in keys` keeps the rows of a key or drops them. -/
theorem filter_whereTrue_isIn (keys : List (Option α × Option β)) (a : α) (b : β) :
    (Sql.whereTrue (fun r => Sql.and (older r) (Sql.isIn (key r) keys)) rows).filter
        (fun r => decide (key r = (some a, some b))) =
      if (some a, some b) ∈ keys then sharing key older rows a b else [] := by
  rw [Sql.whereTrue, List.filter_filter]
  split
  · rename_i hin
    refine List.filter_congr fun r _ => ?_
    rw [← Bool.decide_and]
    refine decide_eq_decide.2 ?_
    rw [Sql.and_eq_true, Sql.isIn_eq_true]
    constructor
    · rintro ⟨hkey, hold, -⟩
      exact ⟨hold, hkey⟩
    · rintro ⟨hold, hkey⟩
      exact ⟨hkey, hold, a, b, hkey, hin⟩
  · rename_i hout
    refine List.filter_eq_nil_iff.2 fun r _ => ?_
    rw [← Bool.decide_and, decide_eq_true_eq, Sql.and_eq_true, Sql.isIn_eq_true]
    rintro ⟨hkey, -, x, y, hxy, hin⟩
    rw [hkey] at hxy
    cases hxy
    exact hout hin

variable (key rows) in
/-- The query selects either all rows with a key or none: all, when there are two
    of them and one is current. -/
theorem filter_selectDuplicates (hcur : ∀ r, current r = some true → older r = some true)
    (a : α) (b : β) :
    (selectDuplicates key older current rows).filter (fun r => decide (key r = (some a, some b))) =
      if 2 ≤ (sharing key older rows a b).length ∧
          ∃ r ∈ sharing key older rows a b, current r = some true
      then sharing key older rows a b else [] := by
  have hkeys : (some a, some b) ∈ (Sql.whereTrue current rows).map key ↔
      ∃ r ∈ sharing key older rows a b, current r = some true := by
    simp only [List.mem_map, Sql.mem_whereTrue, sharing, List.mem_filter, decide_eq_true_eq]
    constructor
    · rintro ⟨r, ⟨hr, hc⟩, hk⟩
      exact ⟨r, ⟨hr, hcur r hc, hk⟩, hc⟩
    · rintro ⟨r, ⟨hr, -, hk⟩, hc⟩
      exact ⟨r, ⟨hr, hc⟩, hk⟩
  have hshared : (some a, some b) ∈ Sql.groupByHaving key 1 (Sql.whereTrue (fun r =>
        Sql.and (older r) (Sql.isIn (key r) ((Sql.whereTrue current rows).map key))) rows) ↔
      2 ≤ (sharing key older rows a b).length ∧
        ∃ r ∈ sharing key older rows a b, current r = some true := by
    rw [Sql.mem_groupByHaving, filter_whereTrue_isIn, ← hkeys]
    split
    · rename_i hin
      exact ⟨fun h => ⟨h, hin⟩, And.left⟩
    · rename_i hout
      exact ⟨fun h => absurd h (by simp), fun h => absurd h.2 hout⟩
  rw [selectDuplicates, filter_whereTrue_isIn]
  simp only [hshared]

/-- A selected row has a key without NULL. -/
theorem key_of_mem_selectDuplicates {r : ρ} (hr : r ∈ selectDuplicates key older current rows) :
    ∃ a b, key r = (some a, some b) := by
  simp only [selectDuplicates, Sql.mem_whereTrue, Sql.and_eq_true] at hr
  obtain ⟨a, b, hkey, -⟩ := Sql.isIn_eq_true.1 hr.2.2
  exact ⟨a, b, hkey⟩

end Nested

-- ---------------------------------------------------------------------------
-- The queries
-- ---------------------------------------------------------------------------

/-- `dedupe_seq <= ?1` -/
def seqLe (seq : Nat) (f : FileRow) : Sql.Truth :=
  Sql.compare (fun a b => decide (a ≤ b)) (some f.dedupeSeq) (some (seq : Int))

/-- `dedupe_seq = ?1` -/
def seqEq (seq : Nat) (f : FileRow) : Sql.Truth := Sql.eq (some f.dedupeSeq) (some (seq : Int))

/-- `not (flags & 1)` -/
def notInlined (f : FileRow) : Sql.Truth := Sql.not (Sql.bitAnd f.flags (some 1))

/-- `GET_DUPLICATE_FILES` -/
def getDuplicateFiles (t : Tables) (seq : Nat) : List FileRow :=
  selectDuplicates (fun f => (f.digest, some f.size))
    (fun f => Sql.and (seqLe seq f) (notInlined f)) (fun f => Sql.and (seqEq seq f) (notInlined f))
    t.files

/-- `GET_DUPLICATE_EXTENTS` -/
def getDuplicateExtents (t : Tables) (seq : Nat) : List (ExtentRow × FileRow) :=
  selectDuplicates (fun p => (some p.1.digest, some p.1.len))
    (fun p => seqLe seq p.2) (fun p => seqEq seq p.2)
    (Sql.join (fun e f => Sql.eq (some e.fileid) (some f.id)) t.extents t.files)

/-- `GET_DUPLICATE_BLOCKS`, whose key is the digest alone. -/
def getDuplicateBlocks (t : Tables) (seq : Nat) : List (BlockRow × FileRow) :=
  selectDuplicates (fun p => (some p.1.digest, some ()))
    (fun p => seqLe seq p.2) (fun p => seqEq seq p.2)
    (Sql.join (fun b f => Sql.eq (some b.fileid) (some f.id)) t.blocks t.files)

/-- `GET_NONDUPE_EXTENTS`: the extents of a file whose digest no other extent has. -/
def getNondupeExtents (t : Tables) (fileid : Nat) : List ExtentRow :=
  let count (e : ExtentRow) : Nat :=
    (Sql.whereTrue (fun e' => Sql.eq (some e'.digest) (some e.digest)) t.extents).length
  (Sql.whereTrue (fun p => Sql.and (Sql.eq (some p.2.id) (some fileid))
      (Sql.eq (some 1) (some (count p.1))))
    (Sql.join (fun e f => Sql.eq (some f.id) (some e.fileid)) t.extents t.files)).map Prod.fst

@[simp] theorem seqLe_eq_true {seq : Nat} {f : FileRow} :
    seqLe seq f = some true ↔ f.dedupeSeq ≤ seq := by
  simp [seqLe]

@[simp] theorem seqEq_eq_true {seq : Nat} {f : FileRow} :
    seqEq seq f = some true ↔ f.dedupeSeq = seq := by
  rw [seqEq, Sql.eq_some_eq_true]

-- ---------------------------------------------------------------------------
-- What they are for
-- ---------------------------------------------------------------------------

/-- A file that was scanned and is not inlined. -/
def FileRow.isDedupable (f : FileRow) : Bool :=
  match f.flags with
  | none => false
  | some flags => decide (flags &&& fileInlined = 0)

theorem notInlined_eq_true {f : FileRow} : notInlined f = some true ↔ f.isDedupable = true := by
  unfold notInlined FileRow.isDedupable
  rw [Sql.not_eq_true, Sql.bitAnd_eq_false]
  cases f.flags <;> simp [fileInlined]

/-- The files with the given digest and size that a batch may be deduped
    against. -/
def sharedFiles (t : Tables) (seq : Nat) (digest : DigestBytes) (size : Nat) : List FileRow :=
  t.files.filter fun f => decide
    (f.digest = some digest ∧ f.size = size ∧ f.isDedupable = true ∧ f.dedupeSeq ≤ seq)

/-- The extents with the given digest and length that a batch may be deduped
    against. -/
def sharedExtents (t : Tables) (seq : Nat) (digest : DigestBytes) (len : Nat) : List ExtentRow :=
  t.extents.filter fun e => decide
    (e.digest = digest ∧ e.len = len ∧ ∃ f ∈ t.files, f.id = e.fileid ∧ f.dedupeSeq ≤ seq)

/-- The extent belongs to a file of the current batch. -/
def ExtentRow.isCurrent (t : Tables) (seq : Nat) (e : ExtentRow) : Prop :=
  ∃ f ∈ t.files, f.id = e.fileid ∧ f.dedupeSeq = seq

instance (t : Tables) (seq : Nat) (e : ExtentRow) : Decidable (e.isCurrent t seq) :=
  inferInstanceAs (Decidable (∃ f ∈ t.files, f.id = e.fileid ∧ f.dedupeSeq = seq))

theorem filter_getDuplicateFiles (t : Tables) (seq : Nat) (digest : DigestBytes) (size : Nat) :
    (getDuplicateFiles t seq).filter
        (fun f => decide (f.digest = some digest ∧ f.size = size)) =
      if 2 ≤ (sharedFiles t seq digest size).length ∧
          ∃ f ∈ sharedFiles t seq digest size, f.dedupeSeq = seq
      then sharedFiles t seq digest size else [] := by
  have hcur : ∀ f, Sql.and (seqEq seq f) (notInlined f) = some true →
      Sql.and (seqLe seq f) (notInlined f) = some true := by
    intro f
    rw [Sql.and_eq_true, Sql.and_eq_true, seqEq_eq_true, seqLe_eq_true]
    exact And.imp_left Int.le_of_eq
  have hshared : sharing (fun f => (f.digest, some f.size))
      (fun f => Sql.and (seqLe seq f) (notInlined f)) t.files digest size =
        sharedFiles t seq digest size := by
    refine List.filter_congr fun f _ => decide_eq_decide.2 ?_
    rw [Sql.and_eq_true, seqLe_eq_true, notInlined_eq_true, Prod.mk.injEq, Option.some.injEq]
    tauto
  have hselect := filter_selectDuplicates (fun f => (f.digest, some f.size)) t.files hcur digest
    size
  simp only [Prod.mk.injEq, Option.some.injEq] at hselect
  rw [getDuplicateFiles, hselect, hshared]
  refine if_congr (and_congr_right fun _ => ?_) rfl rfl
  refine exists_congr fun f => and_congr_right fun hf => ?_
  simp only [sharedFiles, List.mem_filter, decide_eq_true_eq] at hf
  rw [Sql.and_eq_true, seqEq_eq_true, notInlined_eq_true]
  exact and_iff_left hf.2.2.2.1

/-- A primary key selects at most one row. -/
theorem filter_id_eq {files : List FileRow} (hids : (files.map FileRow.id).Nodup) (id : Nat)
    (p : FileRow → Bool) :
    (∃ f, f ∈ files ∧ f.id = id ∧ p f = true ∧
      (files.filter fun f => decide (f.id = id) && p f) = [f]) ∨
    ((∀ f ∈ files, f.id = id → p f = false) ∧
      (files.filter fun f => decide (f.id = id) && p f) = []) := by
  induction files with
  | nil => exact .inr ⟨by simp, rfl⟩
  | cons f files ih =>
    obtain ⟨hnew, hids⟩ := List.nodup_cons.1 hids
    by_cases hf : f.id = id ∧ p f = true
    · left
      have hrest : (files.filter fun f => decide (f.id = id) && p f) = [] := by
        refine List.filter_eq_nil_iff.2 fun g hg => ?_
        have hne : g.id ≠ id := fun heq => hnew (List.mem_map.2 ⟨g, hg, heq.trans hf.1.symm⟩)
        simp [hne]
      refine ⟨f, List.mem_cons_self, hf.1, hf.2, ?_⟩
      rw [List.filter_cons_of_pos (by simp [hf]), hrest]
    · rw [List.filter_cons_of_neg (by simpa using hf)]
      rcases ih hids with ⟨g, hg, hid, hp, heq⟩ | ⟨hno, heq⟩
      · exact .inl ⟨g, List.mem_cons_of_mem _ hg, hid, hp, heq⟩
      · refine .inr ⟨fun g hg hid => ?_, heq⟩
        rcases List.mem_cons.1 hg with rfl | hg
        · exact Bool.eq_false_iff.2 fun hp => hf ⟨hid, hp⟩
        · exact hno g hg hid

/-- Every row belongs to one file, so a select on the join has one row for each
    row. -/
theorem map_fst_filter_join {ρ : Type} (fileid : ρ → Nat) {files : List FileRow}
    (hids : (files.map FileRow.id).Nodup) (p : ρ × FileRow → Bool) (rows : List ρ) :
    ((Sql.join (fun r f => Sql.eq (some (fileid r)) (some f.id)) rows files).filter p).map
        Prod.fst =
      rows.filter fun r => decide (∃ f ∈ files, f.id = fileid r ∧ p (r, f) = true) := by
  induction rows with
  | nil => rfl
  | cons r rows ih =>
    have hjoin : Sql.join (fun r f => Sql.eq (some (fileid r)) (some f.id)) (r :: rows) files =
        (Sql.whereTrue (fun f => Sql.eq (some (fileid r)) (some f.id)) files).map (r, ·) ++
          Sql.join (fun r f => Sql.eq (some (fileid r)) (some f.id)) rows files := by
      simp [Sql.join]
    have hfile : (Sql.whereTrue (fun f => Sql.eq (some (fileid r)) (some f.id)) files).filter
        (p ∘ (r, ·)) = files.filter fun f => decide (f.id = fileid r) && p (r, f) := by
      rw [Sql.whereTrue, List.filter_filter]
      refine List.filter_congr fun f _ => ?_
      rw [Bool.and_comm]
      simp only [Sql.eq_some_eq_true, Function.comp_apply, eq_comm (a := fileid r)]
    rw [hjoin, List.filter_append, List.map_append, ih, List.filter_map, hfile]
    rcases filter_id_eq hids (fileid r) (fun f => p (r, f)) with ⟨f, hf, hid, hp, heq⟩ | ⟨hno, heq⟩
    · rw [heq, List.filter_cons_of_pos (by simpa using ⟨f, hf, hid, hp⟩)]
      rfl
    · rw [heq, List.filter_cons_of_neg (by simpa using hno)]
      rfl

theorem map_fst_filter_getDuplicateExtents (db : Hashfile) (seq : Nat) (digest : DigestBytes)
    (len : Nat) :
    ((getDuplicateExtents db.toTables seq).filter
        (fun p => decide (p.1.digest = digest ∧ p.1.len = len))).map Prod.fst =
      if 2 ≤ (sharedExtents db.toTables seq digest len).length ∧
          ∃ e ∈ sharedExtents db.toTables seq digest len, e.isCurrent db.toTables seq
      then sharedExtents db.toTables seq digest len else [] := by
  have hcur : ∀ p : ExtentRow × FileRow, seqEq seq p.2 = some true → seqLe seq p.2 = some true := by
    intro p
    rw [seqEq_eq_true, seqLe_eq_true]
    exact Int.le_of_eq
  generalize hrows : Sql.join (fun e f => Sql.eq (some e.fileid) (some f.id)) db.extents db.files =
    rows
  have hshared : (sharing (fun p => (some p.1.digest, some p.1.len)) (fun p => seqLe seq p.2) rows
      digest len).map Prod.fst = sharedExtents db.toTables seq digest len := by
    rw [sharing, ← hrows, map_fst_filter_join ExtentRow.fileid db.constraints.id_unique]
    refine List.filter_congr fun e _ => decide_eq_decide.2 ?_
    simp only [decide_eq_true_eq, seqLe_eq_true, Prod.mk.injEq, Option.some.injEq]
    constructor
    · rintro ⟨f, hf, hid, hle, hd, hl⟩
      exact ⟨hd, hl, f, hf, hid, hle⟩
    · rintro ⟨hd, hl, f, hf, hid, hle⟩
      exact ⟨f, hf, hid, hle, hd, hl⟩
  have hcurrent : (∃ p ∈ sharing (fun p => (some p.1.digest, some p.1.len))
      (fun p => seqLe seq p.2) rows digest len, seqEq seq p.2 = some true) ↔
        ∃ e ∈ sharedExtents db.toTables seq digest len, e.isCurrent db.toTables seq := by
    simp only [sharing, sharedExtents, ← hrows, List.mem_filter, decide_eq_true_eq, Sql.mem_join,
      seqLe_eq_true, seqEq_eq_true, Prod.mk.injEq, Option.some.injEq, ExtentRow.isCurrent]
    constructor
    · rintro ⟨⟨e, f⟩, ⟨⟨he, hf, hid⟩, hle, hd, hl⟩, heq⟩
      have hid : f.id = e.fileid := (Sql.eq_some_eq_true.1 hid).symm
      exact ⟨e, ⟨he, hd, hl, f, hf, hid, hle⟩, f, hf, hid, heq⟩
    · rintro ⟨e, ⟨he, hd, hl, -⟩, f, hf, hid, heq⟩
      exact ⟨(e, f), ⟨⟨he, hf, Sql.eq_some_eq_true.2 hid.symm⟩,
        Int.le_of_eq heq, hd, hl⟩, heq⟩
  have hselect := filter_selectDuplicates
    (fun p : ExtentRow × FileRow => (some p.1.digest, some p.1.len)) rows hcur digest len
  simp only [Prod.mk.injEq, Option.some.injEq] at hselect
  rw [getDuplicateExtents, hrows, hselect, apply_ite (List.map Prod.fst), hshared]
  refine if_congr (and_congr ?_ hcurrent) rfl rfl
  rw [← hshared, List.length_map]

end Duperemove
