-- SUMMARY: The groups that a load of extents leaves: their members, the lengths of these, and which of them comes first.
import Duperemove.Dbfile.Load

/-!
# Loaded groups

`insert_one_result` changes the group under its key, and only appends to it. So a
group that was loaded keeps the first extent that was inserted, all its extents carry
its length as their physical length, and its members are the rows that the query
selected for its key.
-/

namespace Duperemove

-- ---------------------------------------------------------------------------
-- One result
-- ---------------------------------------------------------------------------

section Insert

variable {g : DupeExtents} {e : ResultExtent} {res res' : ResultsTree} {reg : Registry}

/-- The group keeps its key, and the extent goes to its end unless it was there. -/
theorem insertExtent_cases (g : DupeExtents) (e : ResultExtent) :
    (g.insertExtent e).2.deLen = g.deLen ∧ (g.insertExtent e).2.deHash = g.deHash ∧
      ((g.insertExtent e).2.deExtents = g.deExtents ∨
        (g.insertExtent e).2.deExtents =
          g.deExtents ++ [{ e with eParent := some (g.deLen, g.deHash) }]) := by
  unfold DupeExtents.insertExtent insertExtentListFree
  by_cases hin : e.key ∈ g.deExtentsRoot
  · rw [dif_pos hin]
    exact ⟨rfl, rfl, .inl rfl⟩
  · rw [dif_neg hin]
    exact ⟨rfl, rfl, .inr rfl⟩

/-- The group that `insert_one_result` adds to. -/
def ResultsTree.groupFor (res : ResultsTree) (digest : DigestBytes) (len : Nat) : DupeExtents :=
  res.root[(len, digest)]?.getD (dupeExtentsNew digest len)

theorem ResultsTree.groupFor_key (res : ResultsTree) (digest : DigestBytes) (len : Nat) :
    (res.groupFor digest len).deLen = len ∧ (res.groupFor digest len).deHash = digest := by
  unfold groupFor
  cases hg : res.root[(len, digest)]? with
  | none => exact ⟨rfl, rfl⟩
  | some g =>
    have hkey := res.keyed (len, digest) g hg
    exact ⟨congrArg Prod.fst hkey, congrArg Prod.snd hkey⟩

/-- `insert_one_result` inserts the extent into the group under its key, and leaves the
    other groups alone. -/
theorem insertOneResult_root {digest : DigestBytes} {file : Filerec} {loff len poff : Nat}
    (hins : res.insertOneResult digest file loff len poff = some res') (k : Nat × DigestBytes) :
    res'.root[k]? =
      if (len, digest) = k then
        some ((res.groupFor digest len).insertExtent ⟨none, file, loff, poff, len, 0⟩).2
      else res.root[k]? := by
  obtain ⟨g, res₁, hfind, hlen, hhash, hroot, -, hother, -⟩ :=
    ResultsTree.findAllocDext_spec .empty res digest len
  have hgroup : g = res.groupFor digest len := by
    unfold ResultsTree.findAllocDext ResultsTree.findDupeExtents at hfind
    unfold ResultsTree.groupFor
    cases hg : res.root[(len, digest)]? with
    | some g' =>
      simp only [hg, Option.some.injEq, Prod.mk.injEq] at hfind
      exact hfind.1.symm
    | none =>
      simp only [hg] at hfind
      obtain ⟨_, _, hpair⟩ := Option.map_eq_some_iff.1 hfind
      exact (congrArg Prod.fst hpair).symm
  rw [ResultsTree.insertOneResult, hfind] at hins
  simp only [Option.bind_some, hlen, ne_eq, not_true_eq_false, if_false, allocExtent] at hins
  obtain ⟨hlen', hhash', -⟩ := insertExtent_cases g ⟨none, file, loff, poff, len, 0⟩
  rw [← hgroup]
  unfold DupeExtents.insertExtent at hlen' hhash' ⊢
  cases hnew : insertExtentListFree g ⟨none, file, loff, poff, len, 0⟩ with
  | none =>
    simp only [hnew, Option.some.injEq] at hins ⊢
    rw [← hins]
    split
    case isTrue hk => rw [← hk, hroot]
    case isFalse hk => exact hother k (Ne.symm hk)
  | some g' =>
    simp only [hnew, Option.some.injEq] at hins hlen' hhash' ⊢
    rw [← hins]
    simp only [ResultsTree.setGroup_root, ResultsTree.getElem?_insert, hlen', hhash', hlen, hhash]
    split
    case isTrue => rfl
    case isFalse hk => exact hother k (Ne.symm hk)

/-- Every extent of the tree has the length of its group as its physical length. -/
def ResultsTree.FullLengths (res : ResultsTree) : Prop :=
  ∀ (k : Nat × DigestBytes) (g : DupeExtents), res.root[k]? = some g →
    ∀ e ∈ g.deExtents, e.ePlen = g.deLen

theorem fullLengths_empty : ResultsTree.empty.FullLengths := by
  intro k g hg
  simp [ResultsTree.empty] at hg

theorem ResultsTree.FullLengths.insertOneResult {digest : DigestBytes} {file : Filerec}
    {loff len poff : Nat} (hfull : res.FullLengths)
    (hins : res.insertOneResult digest file loff len poff = some res') : res'.FullLengths := by
  intro k g hg e he
  rw [insertOneResult_root hins] at hg
  split at hg
  case isFalse => exact hfull k g hg e he
  case isTrue =>
    have hold : ∀ e ∈ (res.groupFor digest len).deExtents,
        e.ePlen = (res.groupFor digest len).deLen := by
      unfold groupFor
      cases hg' : res.root[(len, digest)]? with
      | none => exact fun e he => absurd he List.not_mem_nil
      | some g' => exact hfull _ g' hg'
    obtain ⟨hlen, -, hextents⟩ :=
      insertExtent_cases (res.groupFor digest len) ⟨none, file, loff, poff, len, 0⟩
    cases hg
    rw [hlen]
    rcases hextents with hsame | happend
    · exact hold e (hsame ▸ he)
    · rw [happend, List.mem_append, List.mem_singleton] at he
      rcases he with he | rfl
      · exact hold e he
      · exact (res.groupFor_key digest len).1.symm

/-- The group under the key `k` begins with the extent `y`. -/
def ResultsTree.StartsWith (res : ResultsTree) (k : Nat × DigestBytes) (y : ResultExtent) : Prop :=
  ∃ g, res.root[k]? = some g ∧ g.deExtents.head? = some y

theorem ResultsTree.StartsWith.insertOneResult {k : Nat × DigestBytes} {y : ResultExtent}
    {digest : DigestBytes} {file : Filerec} {loff len poff : Nat} (hfirst : res.StartsWith k y)
    (hins : res.insertOneResult digest file loff len poff = some res') : res'.StartsWith k y := by
  obtain ⟨g, hg, hhead⟩ := hfirst
  rw [StartsWith, insertOneResult_root hins]
  by_cases hk : (len, digest) = k
  · subst hk
    rw [if_pos rfl]
    refine ⟨_, rfl, ?_⟩
    have hgroup : res.groupFor digest len = g := by
      rw [groupFor, hg]
      rfl
    rw [hgroup]
    rcases (insertExtent_cases g ⟨none, file, loff, poff, len, 0⟩).2.2 with hsame | happend
    · rw [hsame, hhead]
    · rw [happend, List.head?_append, hhead]
      rfl
  · rw [if_neg hk]
    exact ⟨g, hg, hhead⟩

/-- The first result of a group. -/
theorem startsWith_of_none {digest : DigestBytes} {file : Filerec} {loff len poff : Nat}
    (hnone : res.root[(len, digest)]? = none)
    (hins : res.insertOneResult digest file loff len poff = some res') :
    res'.StartsWith (len, digest) ⟨some (len, digest), file, loff, poff, len, 0⟩ := by
  rw [ResultsTree.StartsWith, insertOneResult_root hins, if_pos rfl]
  refine ⟨_, rfl, ?_⟩
  have hgroup : res.groupFor digest len = dupeExtentsNew digest len := by
    rw [ResultsTree.groupFor, hnone]
    rfl
  rw [hgroup]
  simp [DupeExtents.insertExtent, insertExtentListFree, dupeExtentsNew]

end Insert

-- ---------------------------------------------------------------------------
-- One row
-- ---------------------------------------------------------------------------

section Row

variable {s s' : LoadState} {digest : DigestBytes} {fileid : Nat} {info : Option (String × Nat)}
variable {loff len poff : Nat}

/-- What a row does: its file has a record, and the result goes to the tree. -/
theorem loadRow_cases (h : loadRow s digest fileid info loff len poff = some s') :
    ∃ file, s.reg.filerecOf fileid info = some (file, s'.reg) ∧
      s.res.insertOneResult digest file loff len poff = some s'.res := by
  obtain ⟨⟨file, reg⟩, hof, hmap⟩ := Option.bind_eq_some_iff.1 h
  obtain ⟨res, hins, rfl⟩ := Option.map_eq_some_iff.1 hmap
  exact ⟨file, hof, hins⟩

/-- The first record that is created has the least address. -/
theorem Registry.filerecOf_empty {reg : Registry} {file : Filerec}
    (h : Registry.empty.filerecOf fileid info = some (file, reg)) :
    file.addr = 0 ∧ file.fileid = fileid := by
  have hnone : Registry.empty.filerecFind fileid = none := by
    simp [Registry.empty, filerecFind]
  cases info with
  | none => simp [filerecOf, hnone] at h
  | some info =>
    simp only [filerecOf, hnone, Option.bind_some, filerecNew, Option.some.injEq,
      Prod.mk.injEq] at h
    rw [← h.1]
    exact ⟨rfl, rfl⟩

end Row

-- ---------------------------------------------------------------------------
-- A whole load
-- ---------------------------------------------------------------------------

/-- A group that the load of a batch leaves. -/
structure LoadedGroup (t : Tables) (seq : Nat) (reg : Registry) (g : DupeExtents) : Prop where
  two : 2 ≤ g.deNumDupes
  current : ∃ x ∈ sharedExtents t seq g.deHash g.deLen, x.isCurrent t seq
  known : ∀ y ∈ g.deExtents, reg.filerecFind y.eFile.fileid = some y.eFile
  lengths : ∀ y ∈ g.deExtents, y.ePlen = g.deLen
  members : g.members.Perm ((sharedExtents t seq g.deHash g.deLen).map ExtentRow.member)

/-- The extents of a loaded group stand for rows, -/
theorem LoadedGroup.row {t : Tables} {seq : Nat} {reg : Registry} {g : DupeExtents}
    (hg : LoadedGroup t seq reg g) {y : ResultExtent} (hy : y ∈ g.deExtents) :
    ∃ x ∈ sharedExtents t seq g.deHash g.deLen, x.fileid = y.eFile.fileid ∧ x.loff = y.eLoff ∧
      x.poff = y.ePoff := by
  have hmem := hg.members.mem_iff.1 (List.mem_map_of_mem hy)
  obtain ⟨x, hx, hsame⟩ := List.mem_map.1 hmem
  simp only [ExtentRow.member, ResultExtent.member, Member.mk.injEq] at hsame
  exact ⟨x, hx, hsame⟩

/-- and every row that shares the key has its extent. -/
theorem LoadedGroup.extent {t : Tables} {seq : Nat} {reg : Registry} {g : DupeExtents}
    (hg : LoadedGroup t seq reg g) {x : ExtentRow}
    (hx : x ∈ sharedExtents t seq g.deHash g.deLen) :
    ∃ y ∈ g.deExtents, x.fileid = y.eFile.fileid ∧ x.loff = y.eLoff ∧ x.poff = y.ePoff := by
  have hmem := hg.members.mem_iff.2 (List.mem_map_of_mem hx)
  obtain ⟨y, hy, hsame⟩ := List.mem_map.1 hmem
  simp only [ExtentRow.member, ResultExtent.member, Member.mk.injEq] at hsame
  exact ⟨y, hy, hsame.1.symm, hsame.2.1.symm, hsame.2.2.symm⟩

section Load

variable {db : Hashfile} {seq : Nat} {reg : Registry} {s : LoadState}
variable {rows : List (ExtentRow × FileRow)}

theorem loadedGroup_of_load (hrows : rows.Perm (getDuplicateExtents db.toTables seq))
    (hload : dbfileLoadExtentHashes db.toTables rows ⟨reg, .empty⟩ = some s)
    {k : Nat × DigestBytes} {g : DupeExtents} (hg : s.res.root[k]? = some g) :
    LoadedGroup db.toTables seq s.reg g := by
  obtain ⟨s', hload', hknown, hexact⟩ := dbfileLoadExtentHashes_exact db seq reg hrows
  rw [hload] at hload'
  cases hload'
  have hkey := s.res.keyed k g hg
  have hfind : s.res.findDupeExtents g.deHash g.deLen = some g := by
    rw [ResultsTree.findDupeExtents, hkey, hg]
  have hgroup := hexact g.deHash g.deLen
  have hfull : s.res.FullLengths := by
    refine Steps.run_keeps (fun s => s.res.FullLengths) ?_ fullLengths_empty hload
    intro p hp s₁ s₂ hfull hrow
    obtain ⟨_, _, hins⟩ := loadRow_cases hrow
    exact hfull.insertOneResult hins
  refine ⟨hgroup.two_le g hfind, (hgroup.loaded_iff.1 (by rw [hfind]; rfl)).2, hknown k g hg,
    hfull k g hg, hgroup.members_perm g hfind⟩

/-- Some order of the rows, from no record on, puts the extent of a given row in front
    of its group, and in a file with the least address. -/
theorem exists_load_first {x : ExtentRow} {f : FileRow}
    (hx : (x, f) ∈ getDuplicateExtents db.toTables seq) :
    ∃ rows s y, rows.Perm (getDuplicateExtents db.toTables seq) ∧
      dbfileLoadExtentHashes db.toTables rows ⟨.empty, .empty⟩ = some s ∧
      s.res.StartsWith (x.len, x.digest) y ∧ y.eFile.addr = 0 ∧ y.eFile.fileid = x.fileid ∧
      y.eLoff = x.loff ∧ y.ePoff = x.poff := by
  have hperm := (List.perm_cons_erase hx).symm
  obtain ⟨s, hload, -, -⟩ := dbfileLoadExtentHashes_exact db seq .empty hperm
  obtain ⟨s₁, hfirst, hrest⟩ := Steps.run_cons.1 hload
  obtain ⟨file, hof, hins⟩ := loadRow_cases hfirst
  have hnone : ResultsTree.empty.root[(x.len, x.digest)]? = none := by
    simp [ResultsTree.empty]
  have hstart := startsWith_of_none hnone hins
  generalize hy : (⟨some (x.len, x.digest), file, x.loff, x.poff, x.len, 0⟩ : ResultExtent) = y
    at hstart
  obtain ⟨haddr, hid⟩ := Registry.filerecOf_empty hof
  have hkept : s.res.StartsWith (x.len, x.digest) y := by
    refine Steps.run_keeps (fun s => s.res.StartsWith (x.len, x.digest) y) ?_ hstart hrest
    intro p hp s₁ s₂ hstart hrow
    obtain ⟨_, _, hins⟩ := loadRow_cases hrow
    exact hstart.insertOneResult hins
  subst hy
  exact ⟨_, s, _, hperm, hload, hkept, haddr, hid, rfl, rfl⟩

end Load

end Duperemove
