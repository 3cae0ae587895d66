-- SUMMARY: Loading duplicates from a hashfile into the results tree, and that a load is exact.
import Duperemove.Dbfile.Queries
import Duperemove.Lib.Steps
import Duperemove.ResultsTree

/-!
# Loading duplicates

`dbfile_load_same_files` and `dbfile_load_extent_hashes` step through the rows
of their query and insert each one into the results tree. SQLite may return the
rows in any order, so the rows are a list that is a permutation of what the
query selects. Running out of memory and errors of SQLite are left out.
-/

namespace Duperemove

-- ---------------------------------------------------------------------------
-- The two loads
-- ---------------------------------------------------------------------------

structure LoadState where
  reg : Registry
  res : ResultsTree

/-- One row: find or create the record of the file, and insert the result.
    `none` is an abort. -/
def loadRow (s : LoadState) (digest : DigestBytes) (fileid : Nat) (info : Option (String × Nat))
    (loff len poff : Nat) : Option LoadState :=
  (s.reg.filerecOf fileid info).bind fun (file, reg) =>
    (s.res.insertOneResult digest file loff len poff).map fun res => ⟨reg, res⟩

/-- `dbfile_load_same_files` over the rows of its query. A NULL digest would be a
    NULL pointer. -/
def dbfileLoadSameFiles (rows : List FileRow) (s : LoadState) : Option LoadState :=
  rows.foldlM (fun s f => f.digest.bind fun digest =>
    loadRow s digest f.id (some (f.filename, f.size)) 0 f.size 0) s

/-- `dbfile_load_one_filerec` -/
def dbfileLoadOneFilerec (t : Tables) (fileid : Nat) : Option (String × Nat) :=
  (t.files.find? fun f => decide (f.id = fileid)).map fun f => (f.filename, f.size)

/-- `dbfile_load_extent_hashes` over the rows of its query. -/
def dbfileLoadExtentHashes (t : Tables) (rows : List (ExtentRow × FileRow)) (s : LoadState) :
    Option LoadState :=
  rows.foldlM (fun s p => loadRow s p.1.digest p.1.fileid (dbfileLoadOneFilerec t p.1.fileid)
    p.1.loff p.1.len p.1.poff) s

-- ---------------------------------------------------------------------------
-- One row after the other
-- ---------------------------------------------------------------------------

theorem loadRow_spec {s : LoadState} (hknown : s.res.Known s.reg) (digest : DigestBytes)
    (fileid : Nat) (info : String × Nat) (loff len poff : Nat) :
    ∃ s', loadRow s digest fileid (some info) loff len poff = some s' ∧ s'.res.Known s'.reg ∧
      s'.res.membersAt (len, digest) =
        addMember (s.res.membersAt (len, digest)) ⟨fileid, loff, poff⟩ ∧
      ∀ k, k ≠ (len, digest) → s'.res.membersAt k = s.res.membersAt k := by
  obtain ⟨file, reg', hof, hid, hfind, hkeep⟩ := s.reg.filerecOf_spec fileid info
  have hknown' : s.res.Known reg' := fun k g hg e he => hkeep _ _ (hknown k g hg e he)
  rw [← hid] at hfind
  obtain ⟨res', hins, hknown'', hmembers, hother⟩ :=
    ResultsTree.insertOneResult_spec hknown' hfind digest loff len poff
  rw [loadRow, hof]
  simp only [Option.bind_some, hins, Option.map_some]
  refine ⟨_, rfl, hknown'', ?_, hother⟩
  rw [hmembers, hid]

section Fold

variable {ρ : Type} {step : LoadState → ρ → Option LoadState}
variable {key : ρ → Option (Nat × DigestBytes)} {member : ρ → Member}

/-- What a step does with a row: it adds the member of the row to the group under
    the key of the row. -/
def Adds (step : LoadState → ρ → Option LoadState) (key : ρ → Option (Nat × DigestBytes))
    (member : ρ → Member) (r : ρ) : Prop :=
  ∀ s : LoadState, s.res.Known s.reg → ∃ s' k, step s r = some s' ∧ key r = some k ∧
    s'.res.Known s'.reg ∧ s'.res.membersAt k = addMember (s.res.membersAt k) (member r) ∧
    ∀ k', k' ≠ k → s'.res.membersAt k' = s.res.membersAt k'

/-- A whole load adds the members of the rows to their groups, in order. -/
theorem foldlM_adds (rows : List ρ) (hadds : ∀ r ∈ rows, Adds step key member r)
    {s : LoadState} (hknown : s.res.Known s.reg) :
    ∃ s', rows.foldlM step s = some s' ∧ s'.res.Known s'.reg ∧
      ∀ k, s'.res.membersAt k =
        ((rows.filter fun r => decide (key r = some k)).map member).foldl addMember
          (s.res.membersAt k) := by
  induction rows generalizing s with
  | nil => exact ⟨s, rfl, hknown, fun _ => rfl⟩
  | cons r rows ih =>
    obtain ⟨s₁, k₁, hstep, hkey, hknown₁, hmembers, hother⟩ := hadds r List.mem_cons_self s hknown
    obtain ⟨s', hfold, hknown', hall⟩ :=
      ih (fun r hr => hadds r (List.mem_cons_of_mem _ hr)) hknown₁
    refine ⟨s', Steps.run_cons.2 ⟨s₁, hstep, hfold⟩, hknown', fun k => ?_⟩
    rw [hall k]
    by_cases hk : k = k₁
    · subst hk
      rw [List.filter_cons_of_pos (by simp [hkey]), List.map_cons, List.foldl_cons, hmembers]
    · rw [List.filter_cons_of_neg (by simp [hkey, Ne.symm hk]), hother k hk]

/-- Members at different places are all kept. -/
theorem foldl_addMember_some {ms : List Member} (old : List Member)
    (hplaces : ((old ++ ms).map fun m => (m.fileid, m.loff)).Nodup) :
    ms.foldl addMember (some old) = some (old ++ ms) := by
  induction ms generalizing old with
  | nil => simp
  | cons m ms ih =>
    have hnew : ¬ ∃ m' ∈ old, m'.fileid = m.fileid ∧ m'.loff = m.loff := by
      rintro ⟨m', hm', hid, hloff⟩
      rw [List.map_append, List.map_cons] at hplaces
      refine (List.nodup_append.1 hplaces).2.2 (m'.fileid, m'.loff)
        (List.mem_map_of_mem hm') (m.fileid, m.loff) List.mem_cons_self ?_
      rw [hid, hloff]
    have hsplit : old ++ m :: ms = old ++ [m] ++ ms := by simp
    rw [List.foldl_cons, addMember, if_neg hnew, hsplit]
    exact ih _ (by rwa [← hsplit])

theorem foldl_addMember_none {ms : List Member}
    (hplaces : (ms.map fun m => (m.fileid, m.loff)).Nodup) :
    ms.foldl addMember none = if ms = [] then none else some ms := by
  cases ms with
  | nil => rfl
  | cons m ms =>
    rw [if_neg (by simp), List.foldl_cons]
    exact foldl_addMember_some [m] hplaces

end Fold

-- ---------------------------------------------------------------------------
-- Exact groups
-- ---------------------------------------------------------------------------

/-- What a load should leave under a key, given everything that shares the key
    and whether some of it is current: a group of exactly that, when there are at
    least two of them and one is current. -/
structure IsExactGroup (loaded : Option DupeExtents) (digest : DigestBytes) (len : Nat)
    (shared : List Member) (hasCurrent : Prop) : Prop where
  loaded_iff : loaded.isSome = true ↔ 2 ≤ shared.length ∧ hasCurrent
  key_eq : ∀ g, loaded = some g → g.deHash = digest ∧ g.deLen = len
  members_perm : ∀ g, loaded = some g → g.members.Perm shared
  two_le : ∀ g, loaded = some g → 2 ≤ g.deNumDupes

/-- A load that leaves the selected members under a key leaves an exact group. -/
theorem isExactGroup_of_membersAt {res : ResultsTree} {digest : DigestBytes} {len : Nat}
    {shared selected : List Member} {hasCurrent : Prop} [Decidable hasCurrent]
    (hplaces : (shared.map fun m => (m.fileid, m.loff)).Nodup)
    (hselected : selected.Perm (if 2 ≤ shared.length ∧ hasCurrent then shared else []))
    (hmembers : res.membersAt (len, digest) = selected.foldl addMember none) :
    IsExactGroup (res.findDupeExtents digest len) digest len shared hasCurrent := by
  by_cases hcond : 2 ≤ shared.length ∧ hasCurrent
  · rw [if_pos hcond] at hselected
    have hne : selected ≠ [] := by
      rintro rfl
      rw [hselected.symm.eq_nil] at hcond
      exact absurd hcond.1 (by simp)
    rw [foldl_addMember_none ((hselected.map _).nodup_iff.2 hplaces), if_neg hne] at hmembers
    obtain ⟨g, hg, hsel⟩ := Option.map_eq_some_iff.1 hmembers
    have hfind : res.findDupeExtents digest len = some g := hg
    have hperm : g.members.Perm shared := hsel ▸ hselected
    have hkey := res.keyed _ g hg
    simp only [Prod.mk.injEq] at hkey
    rw [hfind]
    refine ⟨by simpa using hcond, ?_, ?_, ?_⟩
    · rintro _ ⟨⟩
      exact ⟨hkey.2, hkey.1⟩
    · rintro _ ⟨⟩
      exact hperm
    · rintro _ ⟨⟩
      have hlen := hperm.length_eq
      rw [DupeExtents.members, List.length_map] at hlen
      rw [g.numDupes_eq, hlen]
      exact hcond.1
  · rw [if_neg hcond] at hselected
    rw [hselected.eq_nil] at hmembers
    have hfind : res.findDupeExtents digest len = none := Option.map_eq_none_iff.1 hmembers
    rw [hfind]
    exact ⟨by simpa using hcond, by simp, by simp, by simp⟩

-- ---------------------------------------------------------------------------
-- Files
-- ---------------------------------------------------------------------------

/-- A file as a member of a group. -/
def FileRow.member (f : FileRow) : Member := ⟨f.id, 0, 0⟩

def ExtentRow.member (e : ExtentRow) : Member := ⟨e.fileid, e.loff, e.poff⟩

theorem known_empty (reg : Registry) : ResultsTree.empty.Known reg := by
  intro k g hg
  simp [ResultsTree.empty] at hg

/-- Loading the duplicate files of a batch leaves one exact group for each digest
    and size. -/
theorem dbfileLoadSameFiles_exact (db : Hashfile) (seq : Nat) (reg : Registry)
    {rows : List FileRow} (hrows : rows.Perm (getDuplicateFiles db.toTables seq)) :
    ∃ s, dbfileLoadSameFiles rows ⟨reg, .empty⟩ = some s ∧ s.res.Known s.reg ∧
      ∀ digest size, IsExactGroup (s.res.findDupeExtents digest size) digest size
        ((sharedFiles db.toTables seq digest size).map FileRow.member)
        (∃ f ∈ sharedFiles db.toTables seq digest size, f.dedupeSeq = seq) := by
  have hadds : ∀ f ∈ rows, Adds (fun s f => f.digest.bind fun digest =>
      loadRow s digest f.id (some (f.filename, f.size)) 0 f.size 0)
      (fun f => f.digest.map fun digest => (f.size, digest)) FileRow.member f := by
    intro f hf s hknown
    obtain ⟨digest, size, hkey⟩ := key_of_mem_selectDuplicates (hrows.mem_iff.1 hf)
    simp only [Prod.mk.injEq] at hkey
    obtain ⟨s', hload, hknown', hmembers, hother⟩ :=
      loadRow_spec hknown digest f.id (f.filename, f.size) 0 f.size 0
    refine ⟨s', (f.size, digest), ?_, ?_, hknown', hmembers, hother⟩
    · simp only [hkey.1, Option.bind_some, hload]
    · simp only [hkey.1, Option.map_some]
  obtain ⟨s, hfold, hknown, hall⟩ := foldlM_adds rows hadds (s := ⟨reg, .empty⟩) (known_empty reg)
  refine ⟨s, hfold, hknown, fun digest size => ?_⟩
  refine isExactGroup_of_membersAt ?_ ?_ (hall (size, digest))
  · refine List.Nodup.of_map Prod.fst ?_
    rw [List.map_map, List.map_map]
    exact db.constraints.id_unique.sublist (List.filter_sublist.map _)
  · have hfilter : (rows.filter fun f => decide ((f.digest.map fun digest => (f.size, digest)) =
        some (size, digest))).Perm
          (if 2 ≤ (sharedFiles db.toTables seq digest size).length ∧
              ∃ f ∈ sharedFiles db.toTables seq digest size, f.dedupeSeq = seq
            then sharedFiles db.toTables seq digest size else []) := by
      rw [← filter_getDuplicateFiles]
      refine (hrows.filter _).trans (List.Perm.of_eq (List.filter_congr fun f _ => ?_))
      refine decide_eq_decide.2 ?_
      cases f.digest <;> simp [and_comm]
    have hmap := hfilter.map FileRow.member
    rw [apply_ite (List.map FileRow.member)] at hmap
    rw [List.length_map]
    exact hmap

-- ---------------------------------------------------------------------------
-- Extents
-- ---------------------------------------------------------------------------

/-- The record of a file can be created when the file is in its table. -/
theorem dbfileLoadOneFilerec_isSome {t : Tables} {fileid : Nat} (h : ∃ f ∈ t.files, f.id = fileid) :
    ∃ info, dbfileLoadOneFilerec t fileid = some info := by
  obtain ⟨f, hf, hid⟩ := h
  have hfind : (t.files.find? fun f => decide (f.id = fileid)).isSome := by
    rw [List.find?_isSome]
    exact ⟨f, hf, by simpa using hid⟩
  obtain ⟨f', hf'⟩ := Option.isSome_iff_exists.1 hfind
  exact ⟨(f'.filename, f'.size), by rw [dbfileLoadOneFilerec, hf']; rfl⟩

/-- Loading the duplicate extents of a batch leaves one exact group for each
    digest and length. -/
theorem dbfileLoadExtentHashes_exact (db : Hashfile) (seq : Nat) (reg : Registry)
    {rows : List (ExtentRow × FileRow)} (hrows : rows.Perm (getDuplicateExtents db.toTables seq)) :
    ∃ s, dbfileLoadExtentHashes db.toTables rows ⟨reg, .empty⟩ = some s ∧ s.res.Known s.reg ∧
      ∀ digest len, IsExactGroup (s.res.findDupeExtents digest len) digest len
        ((sharedExtents db.toTables seq digest len).map ExtentRow.member)
        (∃ e ∈ sharedExtents db.toTables seq digest len, e.isCurrent db.toTables seq) := by
  have hadds : ∀ p ∈ rows, Adds (fun s p => loadRow s p.1.digest p.1.fileid
      (dbfileLoadOneFilerec db.toTables p.1.fileid) p.1.loff p.1.len p.1.poff)
      (fun p => some (p.1.len, p.1.digest)) (fun p => p.1.member) p := by
    intro p hp s hknown
    have hjoin := hrows.mem_iff.1 hp
    simp only [getDuplicateExtents, selectDuplicates, Sql.mem_whereTrue, Sql.mem_join] at hjoin
    have hid : p.1.fileid = p.2.id := Sql.eq_some_eq_true.1 hjoin.1.2.2
    obtain ⟨info, hinfo⟩ := dbfileLoadOneFilerec_isSome ⟨p.2, hjoin.1.2.1, hid.symm⟩
    obtain ⟨s', hload, hknown', hmembers, hother⟩ :=
      loadRow_spec hknown p.1.digest p.1.fileid info p.1.loff p.1.len p.1.poff
    refine ⟨s', (p.1.len, p.1.digest), ?_, rfl, hknown', hmembers, hother⟩
    simp only [hinfo, hload]
  obtain ⟨s, hfold, hknown, hall⟩ := foldlM_adds rows hadds (s := ⟨reg, .empty⟩) (known_empty reg)
  refine ⟨s, hfold, hknown, fun digest len => ?_⟩
  refine isExactGroup_of_membersAt ?_ ?_ (hall (len, digest))
  · -- Extents of one length at one place of one file are one extent.
    have hunique : ((sharedExtents db.toTables seq digest len).map
        fun e => (e.fileid, e.loff, e.len)).Nodup :=
      db.constraints.extent_unique.sublist (List.filter_sublist.map _)
    refine List.Nodup.of_map (fun place => (place.1, place.2, len)) ?_
    rw [List.map_map, List.map_map]
    convert hunique using 1
    refine List.map_congr_left fun e he => ?_
    simp only [sharedExtents, List.mem_filter, decide_eq_true_eq] at he
    simp only [Function.comp_apply, ExtentRow.member, he.2.2.1]
  · have hmap : (rows.filter fun p => decide (some (p.1.len, p.1.digest) =
        some (len, digest))).map Prod.fst |>.Perm
          (if 2 ≤ (sharedExtents db.toTables seq digest len).length ∧
              ∃ e ∈ sharedExtents db.toTables seq digest len, e.isCurrent db.toTables seq
            then sharedExtents db.toTables seq digest len else []) := by
      rw [← map_fst_filter_getDuplicateExtents]
      refine ((hrows.filter _).trans (List.Perm.of_eq (List.filter_congr fun p _ => ?_))).map _
      refine decide_eq_decide.2 ?_
      simp [and_comm]
    have hmember := hmap.map ExtentRow.member
    rw [apply_ite (List.map ExtentRow.member), List.map_map] at hmember
    rw [List.length_map]
    exact hmember

-- ---------------------------------------------------------------------------
-- Both
-- ---------------------------------------------------------------------------

/-- Loading duplicates is exact. In every state of the tables and for every
    sequence number, the groups that a load leaves are those of the files, or of
    the extents, that share a key up to that number with at least one of them
    current, and all of these are members. -/
theorem dbfileLoad_exact (db : Hashfile) (seq : Nat) (reg reg' : Registry)
    {fileRows : List FileRow} (hfiles : fileRows.Perm (getDuplicateFiles db.toTables seq))
    {extentRows : List (ExtentRow × FileRow)}
    (hextents : extentRows.Perm (getDuplicateExtents db.toTables seq)) :
    (∃ s, dbfileLoadSameFiles fileRows ⟨reg, .empty⟩ = some s ∧ ∀ digest size,
      IsExactGroup (s.res.findDupeExtents digest size) digest size
        ((sharedFiles db.toTables seq digest size).map FileRow.member)
        (∃ f ∈ sharedFiles db.toTables seq digest size, f.dedupeSeq = seq)) ∧
    (∃ s, dbfileLoadExtentHashes db.toTables extentRows ⟨reg', .empty⟩ = some s ∧ ∀ digest len,
      IsExactGroup (s.res.findDupeExtents digest len) digest len
        ((sharedExtents db.toTables seq digest len).map ExtentRow.member)
        (∃ e ∈ sharedExtents db.toTables seq digest len, e.isCurrent db.toTables seq)) := by
  obtain ⟨s, hload, -, hexact⟩ := dbfileLoadSameFiles_exact db seq reg hfiles
  obtain ⟨s', hload', -, hexact'⟩ := dbfileLoadExtentHashes_exact db seq reg' hextents
  exact ⟨⟨s, hload, hexact⟩, s', hload', hexact'⟩

/-- Two copies of a file, one of them from an earlier batch, and a file that was
    not scanned yet. -/
def twoCopies : Hashfile where
  files := [⟨1, "/a", 10, 0, 4096, 5, 1, some (Vector.replicate 16 7), some 0⟩,
    ⟨2, "/b", 11, 0, 4096, 6, 2, some (Vector.replicate 16 7), some 0⟩,
    ⟨3, "/c", 12, 0, 4096, 6, 2, none, none⟩]
  extents := [⟨Vector.replicate 16 8, 1, 0, 100, 4096⟩, ⟨Vector.replicate 16 8, 2, 0, 200, 4096⟩]
  blocks := []
  constraints := by
    constructor <;> decide

theorem dbfileLoad_exact_twoCopies :
    (getDuplicateFiles twoCopies.toTables 2).map FileRow.id = [1, 2] ∧
    (∃ s, dbfileLoadSameFiles (getDuplicateFiles twoCopies.toTables 2) ⟨.empty, .empty⟩ = some s ∧
      ∀ digest size, IsExactGroup (s.res.findDupeExtents digest size) digest size
        ((sharedFiles twoCopies.toTables 2 digest size).map FileRow.member)
        (∃ f ∈ sharedFiles twoCopies.toTables 2 digest size, f.dedupeSeq = 2)) ∧
    (∃ s, dbfileLoadExtentHashes twoCopies.toTables (getDuplicateExtents twoCopies.toTables 2)
        ⟨.empty, .empty⟩ = some s ∧
      ∀ digest len, IsExactGroup (s.res.findDupeExtents digest len) digest len
        ((sharedExtents twoCopies.toTables 2 digest len).map ExtentRow.member)
        (∃ e ∈ sharedExtents twoCopies.toTables 2 digest len, e.isCurrent twoCopies.toTables 2)) :=
  ⟨by decide +kernel,
    dbfileLoad_exact twoCopies 2 .empty .empty (List.Perm.refl _) (List.Perm.refl _)⟩

end Duperemove
