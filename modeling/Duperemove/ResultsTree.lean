-- SUMMARY: The registry of file records and the results tree: groups of extents by length and digest.
import Duperemove.Dbfile.Tables

/-!
# The results tree

`filerec.c` keeps one record for each file id, and `results-tree.c` keeps one
group for each length and digest. All trees of the source are red-black trees
that are searched with a comparison of keys, so they are ordered maps here, with
the comparison of the source. A file record is known by its address, which is
also what the tree of a group compares.
-/

namespace Duperemove

/-- Compare two pairs by their first components, then by their second ones. -/
def pairCmp {α β : Type} [Ord α] [Ord β] : α × β → α × β → Ordering :=
  compareLex (compareOn Prod.fst) (compareOn Prod.snd)

instance {α β : Type} [Ord α] [Ord β] [Std.TransOrd α] [Std.TransOrd β] :
    Std.TransCmp (pairCmp (α := α) (β := β)) :=
  inferInstanceAs (Std.TransCmp (compareLex _ _))

instance {α β : Type} [Ord α] [Ord β] [Std.LawfulEqOrd α] [Std.LawfulEqOrd β] :
    Std.LawfulEqCmp (pairCmp (α := α) (β := β)) where
  compare_self := by simp [pairCmp, compareLex, compareOn]
  eq_of_compare h := by
    simp only [pairCmp, compareLex_eq_eq, compareOn] at h
    exact Prod.ext (Std.LawfulEqOrd.eq_of_compare h.1) (Std.LawfulEqOrd.eq_of_compare h.2)

-- ---------------------------------------------------------------------------
-- File records
-- ---------------------------------------------------------------------------

/-- `struct filerec`, as far as the results need it. -/
structure Filerec where
  addr : Nat
  filename : String
  fileid : Nat
  size : Nat
  deriving DecidableEq, Repr

/-- The order of `cmp_filerecs`: larger ids are found to the left. -/
def filerecCmp (a b : Nat) : Ordering := compare b a

instance : Std.TransCmp filerecCmp := inferInstanceAs (Std.TransCmp fun a b : Nat => compare b a)

instance : Std.LawfulEqCmp filerecCmp :=
  inferInstanceAs (Std.LawfulEqCmp fun a b : Nat => compare b a)

/-- `filerec_by_fileid`. Every record lies at an address of its own, and
    `nextAddr` is an address that was not used yet. -/
structure Registry where
  byFileid : Std.TreeMap Nat Filerec filerecCmp
  nextAddr : Nat
  keyed : ∀ (id : Nat) (r : Filerec), byFileid[id]? = some r → r.fileid = id
  addr_lt : ∀ (id : Nat) (r : Filerec), byFileid[id]? = some r → r.addr < nextAddr
  addr_inj : ∀ (id id' : Nat) (r r' : Filerec), byFileid[id]? = some r →
    byFileid[id']? = some r' → r.addr = r'.addr → id = id'

namespace Registry

def empty : Registry where
  byFileid := ∅
  nextAddr := 0
  keyed := by simp
  addr_lt := by simp
  addr_inj := by simp

def filerecFind (reg : Registry) (fileid : Nat) : Option Filerec := reg.byFileid[fileid]?

theorem getElem?_insert {byFileid : Std.TreeMap Nat Filerec filerecCmp} {id id' : Nat}
    {r : Filerec} : (byFileid.insert id r)[id']? = if id = id' then some r else byFileid[id']? := by
  simp only [Std.TreeMap.getElem?_insert, Std.LawfulEqCmp.compare_eq_iff_eq]

/-- `filerec_new`. A second record for an id is an abort. -/
def filerecNew (reg : Registry) (filename : String) (fileid size : Nat) :
    Option (Filerec × Registry) :=
  let r : Filerec := ⟨reg.nextAddr, filename, fileid, size⟩
  match reg.filerecFind fileid with
  | some _ => none
  | none => some (r,
    { byFileid := reg.byFileid.insert fileid r
      nextAddr := reg.nextAddr + 1
      keyed := by
        intro id r' hr'
        rw [getElem?_insert] at hr'
        split at hr'
        · rename_i heq
          cases hr'
          exact heq
        · exact reg.keyed id r' hr'
      addr_lt := by
        intro id r' hr'
        rw [getElem?_insert] at hr'
        split at hr'
        · cases hr'
          exact Nat.lt_succ_self _
        · exact Nat.lt_succ_of_lt (reg.addr_lt id r' hr')
      addr_inj := by
        intro id id' r₁ r₂ h₁ h₂ haddr
        rw [getElem?_insert] at h₁ h₂
        split at h₁ <;> split at h₂
        · rename_i heq₁ heq₂
          exact heq₁.symm.trans heq₂
        · cases h₁
          have := reg.addr_lt id' r₂ h₂
          exact absurd haddr (by simp only [r]; omega)
        · cases h₂
          have := reg.addr_lt id r₁ h₁
          exact absurd haddr (by simp only [r]; omega)
        · exact reg.addr_inj id id' r₁ r₂ h₁ h₂ haddr })

/-- The record of a file, which is created from its name and its size when it is
    not there yet. -/
def filerecOf (reg : Registry) (fileid : Nat) (info : Option (String × Nat)) :
    Option (Filerec × Registry) :=
  match reg.filerecFind fileid with
  | some r => some (r, reg)
  | none => info.bind fun (filename, size) => reg.filerecNew filename fileid size

/-- The record of a file that is known by name: it is found afterwards, and no
    other record is lost. -/
theorem filerecOf_spec (reg : Registry) (fileid : Nat) (info : String × Nat) :
    ∃ r reg', reg.filerecOf fileid (some info) = some (r, reg') ∧ r.fileid = fileid ∧
      reg'.filerecFind fileid = some r ∧
      ∀ id r', reg.filerecFind id = some r' → reg'.filerecFind id = some r' := by
  obtain ⟨filename, size⟩ := info
  cases hfind : reg.filerecFind fileid with
  | some r =>
    refine ⟨r, reg, ?_, reg.keyed fileid r hfind, hfind, fun _ _ h => h⟩
    simp only [filerecOf, hfind]
  | none =>
    simp only [filerecOf, hfind, Option.bind_some, filerecNew]
    refine ⟨_, _, rfl, rfl, ?_, ?_⟩
    · exact getElem?_insert.trans (if_pos rfl)
    · intro id r' hr'
      refine getElem?_insert.trans ((if_neg ?_).trans hr')
      rintro rfl
      rw [hfind] at hr'
      cases hr'

end Registry

-- ---------------------------------------------------------------------------
-- Groups
-- ---------------------------------------------------------------------------

/-- `struct extent`, as it is stored in a group. `eParent` points to the group by
    its length and digest, under which the tree finds it. -/
structure ResultExtent where
  eParent : Option (Nat × DigestBytes)
  eFile : Filerec
  eLoff : Nat
  ePoff : Nat
  ePlen : Nat
  eSharedBytes : Nat
  deriving DecidableEq, Repr

/-- What `extents_rb_cmp` compares. -/
def ResultExtent.key (e : ResultExtent) : Nat × Nat := (e.eFile.addr, e.eLoff)

/-- `alloc_extent` -/
def allocExtent (file : Filerec) (loff : Nat) : ResultExtent := ⟨none, file, loff, 0, 0, 0⟩

/-- `struct dupe_extents`: the list of its extents, the tree that keeps the list
    free of repeats, and the count. The count is an `unsigned int` in the source and
    has no bound here: every extent it counts is a node in memory. -/
structure DupeExtents where
  deLen : Nat
  deHash : DigestBytes
  deScore : Nat
  deNumDupes : Nat
  deExtents : List ResultExtent
  deExtentsRoot : Std.TreeSet (Nat × Nat) pairCmp
  numDupes_eq : deNumDupes = deExtents.length
  mem_root : ∀ k, k ∈ deExtentsRoot ↔ ∃ e ∈ deExtents, e.key = k
  keys_nodup : (deExtents.map ResultExtent.key).Nodup
  parent_eq : ∀ e ∈ deExtents, e.eParent = some (deLen, deHash)

def dupeExtentsNew (digest : DigestBytes) (len : Nat) : DupeExtents where
  deLen := len
  deHash := digest
  deScore := len
  deNumDupes := 0
  deExtents := []
  deExtentsRoot := ∅
  numDupes_eq := rfl
  mem_root := by simp
  keys_nodup := List.nodup_nil
  parent_eq := by simp

/-- `insert_extent_list_free`; `none` when the extent is in the tree already, and
    is freed. -/
def insertExtentListFree (dext : DupeExtents) (e : ResultExtent) : Option DupeExtents :=
  if hin : e.key ∈ dext.deExtentsRoot then none
  else some { dext with
    deNumDupes := dext.deNumDupes + 1
    deExtents := dext.deExtents ++ [{ e with eParent := some (dext.deLen, dext.deHash) }]
    deExtentsRoot := dext.deExtentsRoot.insert e.key
    numDupes_eq := by
      rw [List.length_append, List.length_singleton, dext.numDupes_eq]
    mem_root := by
      intro k
      rw [Std.TreeSet.mem_insert, Std.LawfulEqCmp.compare_eq_iff_eq, dext.mem_root]
      simp only [List.mem_append, List.mem_singleton]
      constructor
      · rintro (rfl | ⟨e', he', rfl⟩)
        · exact ⟨_, .inr rfl, rfl⟩
        · exact ⟨e', .inl he', rfl⟩
      · rintro ⟨e', he' | rfl, rfl⟩
        · exact .inr ⟨e', he', rfl⟩
        · exact .inl rfl
    keys_nodup := by
      rw [List.map_append, List.nodup_append]
      refine ⟨dext.keys_nodup, List.pairwise_singleton .., ?_⟩
      rintro k hk k' hk' rfl
      rw [List.map_singleton, List.mem_singleton] at hk'
      rw [hk'] at hk
      exact hin ((dext.mem_root _).2 (List.mem_map.1 hk))
    parent_eq := by
      intro e' he'
      rcases List.mem_append.1 he' with hold | hnew
      · exact dext.parent_eq e' hold
      · rw [List.mem_singleton.1 hnew] }

-- ---------------------------------------------------------------------------
-- The tree of groups
-- ---------------------------------------------------------------------------

/-- `struct results_tree`. A group is found under its own length and digest. The count of
    groups is an `unsigned int` in the source and has no bound here. -/
structure ResultsTree where
  root : Std.TreeMap (Nat × DigestBytes) DupeExtents pairCmp
  numDupes : Nat
  numExtents : Nat
  keyed : ∀ (k : Nat × DigestBytes) (g : DupeExtents), root[k]? = some g → (g.deLen, g.deHash) = k

namespace ResultsTree

/-- `init_results_tree` -/
def empty : ResultsTree where
  root := ∅
  numDupes := 0
  numExtents := 0
  keyed := by simp

def findDupeExtents (res : ResultsTree) (digest : DigestBytes) (len : Nat) : Option DupeExtents :=
  res.root[(len, digest)]?

theorem getElem?_insert {root : Std.TreeMap (Nat × DigestBytes) DupeExtents pairCmp}
    {k k' : Nat × DigestBytes} {g : DupeExtents} :
    (root.insert k g)[k']? = if k = k' then some g else root[k']? := by
  simp only [Std.TreeMap.getElem?_insert, Std.LawfulEqCmp.compare_eq_iff_eq]

/-- Put a group in its place. -/
def setGroup (res : ResultsTree) (g : DupeExtents) : ResultsTree where
  root := res.root.insert (g.deLen, g.deHash) g
  numDupes := res.numDupes
  numExtents := res.numExtents
  keyed := by
    intro k g' hg'
    rw [getElem?_insert] at hg'
    split at hg'
    · rename_i heq
      cases hg'
      exact heq
    · exact res.keyed k g' hg'

/-- `insert_dupe_extents`. A second group under a key is an abort. -/
def insertDupeExtents (res : ResultsTree) (g : DupeExtents) : Option ResultsTree :=
  match res.findDupeExtents g.deHash g.deLen with
  | some _ => none
  | none => some { res.setGroup g with numDupes := res.numDupes + 1 }

def findAllocDext (res : ResultsTree) (digest : DigestBytes) (len : Nat) :
    Option (DupeExtents × ResultsTree) :=
  match res.findDupeExtents digest len with
  | some g => some (g, res)
  | none =>
    let new := dupeExtentsNew digest len
    (res.insertDupeExtents new).map fun res => (new, res)

/-- `insert_one_result`; `none` is an abort. -/
def insertOneResult (res : ResultsTree) (digest : DigestBytes) (file : Filerec)
    (startoff len poff : Nat) : Option ResultsTree :=
  let extent : ResultExtent := { allocExtent file startoff with ePoff := poff, ePlen := len }
  (res.findAllocDext digest len).bind fun (dext, res) =>
    if dext.deLen ≠ len then none
    else
      match insertExtentListFree dext extent with
      | none => some res
      | some dext => some { res.setGroup dext with numExtents := res.numExtents + 1 }

end ResultsTree

-- ---------------------------------------------------------------------------
-- Pairs of extents
-- ---------------------------------------------------------------------------

/-- The arguments of `insert_result`. -/
structure ResultPair where
  digest : DigestBytes
  recs : Filerec × Filerec
  startoff : Nat × Nat
  endoff : Nat × Nat
  deriving DecidableEq, Repr

def ResultPair.len (p : ResultPair) : Nat :=
  Word.wrap 64 (Word.sub 64 p.endoff.1 p.startoff.1 + 1)

/-- The places of the two extents. -/
def ResultPair.places (p : ResultPair) : (Nat × Nat) × (Nat × Nat) :=
  ((p.recs.1.addr, p.startoff.1), (p.recs.2.addr, p.startoff.2))

/-- `insert_extent_list_free`, with whether the extent went in. -/
def DupeExtents.insertExtent (dext : DupeExtents) (e : ResultExtent) : Bool × DupeExtents :=
  match insertExtentListFree dext e with
  | none => (false, dext)
  | some dext => (true, dext)

/-- What `insert_result` does to a group under its mutex. -/
def DupeExtents.insertPair (dext : DupeExtents) (p : ResultPair) (addScore : Bool) :
    (Bool × Bool) × DupeExtents :=
  let (e0, dext) := dext.insertExtent (allocExtent p.recs.1 p.startoff.1)
  let (e1, dext) := dext.insertExtent (allocExtent p.recs.2 p.startoff.2)
  let score := if addScore then (e0.toNat + e1.toNat) * p.len else 0
  ((e0, e1), { dext with deScore := Word.wrap 64 (dext.deScore + score) })

namespace ResultsTree

/-- The second lookup of `find_alloc_dext`, with the insertion of the new group:
    `add_score`, and the tree. `none` is the abort. -/
def allocDext (res : ResultsTree) (digest : DigestBytes) (len : Nat) :
    Option (Bool × ResultsTree) :=
  match res.findDupeExtents digest len with
  | some _ => some (true, res)
  | none => (res.insertDupeExtents (dupeExtentsNew digest len)).map fun res => (false, res)

/-- `find_alloc_dext` with its `add_score`. -/
def findAllocScore (res : ResultsTree) (digest : DigestBytes) (len : Nat) :
    Option (Bool × ResultsTree) :=
  match res.findDupeExtents digest len with
  | some _ => some (true, res)
  | none => res.allocDext digest len

/-- The section of `insert_result` under the mutex of the group, with which of the
    extents went in. `none` is the abort. -/
def insertPair (res : ResultsTree) (p : ResultPair) (addScore : Bool) :
    Option ((Bool × Bool) × ResultsTree) :=
  (res.findDupeExtents p.digest p.len).bind fun dext =>
    if dext.deLen ≠ p.len then none
    else
      let (new, dext) := dext.insertPair p addScore
      some (new, res.setGroup dext)

/-- The section of `insert_result` that counts the new extents. -/
def countPair (res : ResultsTree) (new : Bool × Bool) : ResultsTree :=
  { res with numExtents := res.numExtents + new.1.toNat + new.2.toNat }

/-- `insert_result`; `none` is an abort. -/
def insertResult (res : ResultsTree) (p : ResultPair) : Option ResultsTree :=
  (res.findAllocScore p.digest p.len).bind fun (addScore, res) =>
    (res.insertPair p addScore).map fun (new, res) => res.countPair new

end ResultsTree

-- ---------------------------------------------------------------------------
-- Members
-- ---------------------------------------------------------------------------

/-- A member of a group, by file id, offset and physical offset. -/
structure Member where
  fileid : Nat
  loff : Nat
  poff : Nat
  deriving DecidableEq, Repr

def ResultExtent.member (e : ResultExtent) : Member := ⟨e.eFile.fileid, e.eLoff, e.ePoff⟩

def DupeExtents.members (g : DupeExtents) : List Member := g.deExtents.map ResultExtent.member

/-- What one more result does to the members of its group. -/
def addMember (group : Option (List Member)) (m : Member) : Option (List Member) :=
  match group with
  | none => some [m]
  | some ms =>
    if ∃ m' ∈ ms, m'.fileid = m.fileid ∧ m'.loff = m.loff then some ms else some (ms ++ [m])

namespace ResultsTree

def membersAt (res : ResultsTree) (k : Nat × DigestBytes) : Option (List Member) :=
  res.root[k]?.map DupeExtents.members

/-- Every extent in the tree belongs to the record that its file id finds. -/
def Known (reg : Registry) (res : ResultsTree) : Prop :=
  ∀ (k : Nat × DigestBytes) (g : DupeExtents), res.root[k]? = some g →
    ∀ e ∈ g.deExtents, reg.filerecFind e.eFile.fileid = some e.eFile

section Insert

variable {reg : Registry} {res : ResultsTree} {file : Filerec}

@[simp] theorem setGroup_root (g : DupeExtents) :
    (res.setGroup g).root = res.root.insert (g.deLen, g.deHash) g := rfl

/-- Two records of the registry with one address are one record. -/
theorem eq_of_addr {r r' : Filerec} (hr : reg.filerecFind r.fileid = some r)
    (hr' : reg.filerecFind r'.fileid = some r') (haddr : r.addr = r'.addr) : r = r' := by
  have hid := reg.addr_inj _ _ r r' hr hr' haddr
  rw [hid] at hr
  exact Option.some.inj (hr.symm.trans hr')

variable (reg res) in
/-- `find_alloc_dext` always returns the group under the key, and changes no
    other. -/
theorem findAllocDext_spec (digest : DigestBytes) (len : Nat) :
    ∃ g res', res.findAllocDext digest len = some (g, res') ∧ g.deLen = len ∧ g.deHash = digest ∧
      res'.root[(len, digest)]? = some g ∧
      g.members = (res.membersAt (len, digest)).getD [] ∧
      (∀ k, k ≠ (len, digest) → res'.root[k]? = res.root[k]?) ∧
      (Known reg res → Known reg res') := by
  cases hfind : res.findDupeExtents digest len with
  | some g =>
    have hkey := res.keyed _ g hfind
    simp only [Prod.mk.injEq] at hkey
    refine ⟨g, res, by simp only [findAllocDext, hfind], hkey.1, hkey.2, hfind, ?_,
      fun _ _ => rfl, id⟩
    unfold findDupeExtents at hfind
    rw [membersAt, hfind]
    rfl
  | none =>
    have hroot : res.root[(len, digest)]? = none := hfind
    have hnew : res.insertDupeExtents (dupeExtentsNew digest len) =
        some { res.setGroup (dupeExtentsNew digest len) with numDupes := res.numDupes + 1 } := by
      simp only [insertDupeExtents, dupeExtentsNew, hfind]
    refine ⟨dupeExtentsNew digest len, _, by simp only [findAllocDext, hfind, hnew]; rfl, rfl, rfl,
      ?_, ?_, ?_, ?_⟩
    · exact getElem?_insert.trans (if_pos rfl)
    · rw [membersAt, hroot]
      rfl
    · intro k hk
      exact getElem?_insert.trans (if_neg (Ne.symm hk))
    · intro hknown k g hg e he
      simp only [setGroup_root, getElem?_insert] at hg
      split at hg
      · cases hg
        cases he
      · exact hknown k g hg e he

/-- The tree of a group finds an extent exactly when it has a member at the same
    place of the same file. -/
theorem key_mem_root_iff {g : DupeExtents} {e : ResultExtent}
    (hknown : ∀ e ∈ g.deExtents, reg.filerecFind e.eFile.fileid = some e.eFile)
    (hfile : reg.filerecFind e.eFile.fileid = some e.eFile) :
    e.key ∈ g.deExtentsRoot ↔
      ∃ m ∈ g.members, m.fileid = e.eFile.fileid ∧ m.loff = e.eLoff := by
  rw [g.mem_root]
  constructor
  · rintro ⟨e', he', hkey⟩
    simp only [ResultExtent.key, Prod.mk.injEq] at hkey
    have hsame := eq_of_addr (hknown e' he') hfile hkey.1
    exact ⟨e'.member, List.mem_map_of_mem he', congrArg Filerec.fileid hsame, hkey.2⟩
  · rintro ⟨m, hm, hid, hloff⟩
    obtain ⟨e', he', rfl⟩ := List.mem_map.1 hm
    have hfind := hknown e' he'
    have hid : e'.eFile.fileid = e.eFile.fileid := hid
    rw [hid, hfile] at hfind
    refine ⟨e', he', ?_⟩
    rw [ResultExtent.key, ResultExtent.key, ← Option.some.inj hfind]
    exact congrArg _ hloff

/-- One more result adds its member to the group under its key, unless it is
    there already. -/
theorem insertOneResult_spec (hknown : Known reg res)
    (hfile : reg.filerecFind file.fileid = some file) (digest : DigestBytes) (loff len poff : Nat) :
    ∃ res', res.insertOneResult digest file loff len poff = some res' ∧ Known reg res' ∧
      res'.membersAt (len, digest) =
        addMember (res.membersAt (len, digest)) ⟨file.fileid, loff, poff⟩ ∧
      ∀ k, k ≠ (len, digest) → res'.membersAt k = res.membersAt k := by
  obtain ⟨g, res₁, hfind, hlen, hhash, hroot, hmembers, hother, hknown₁⟩ :=
    findAllocDext_spec reg res digest len
  have hadd : addMember (res.membersAt (len, digest)) ⟨file.fileid, loff, poff⟩ =
      addMember (some g.members) ⟨file.fileid, loff, poff⟩ := by
    rw [hmembers]
    cases res.membersAt (len, digest) <;> simp [addMember]
  have hin := key_mem_root_iff (e := ⟨none, file, loff, poff, len, 0⟩)
    (hknown₁ hknown (len, digest) g hroot) hfile
  rw [insertOneResult, hfind, hadd]
  simp only [Option.bind_some, hlen, ne_eq, not_true_eq_false, if_false, insertExtentListFree,
    allocExtent]
  by_cases hmem : (⟨none, file, loff, poff, len, 0⟩ : ResultExtent).key ∈ g.deExtentsRoot
  · rw [dif_pos hmem]
    refine ⟨res₁, rfl, hknown₁ hknown, ?_, ?_⟩
    · rw [addMember, if_pos (hin.1 hmem), membersAt, hroot]
      rfl
    · intro k hk
      rw [membersAt, membersAt, hother k hk]
  · rw [dif_neg hmem]
    refine ⟨_, rfl, ?_, ?_, ?_⟩
    · intro k g' hg' e he
      simp only [setGroup_root, getElem?_insert] at hg'
      split at hg'
      · cases hg'
        rcases List.mem_append.1 he with he | he
        · exact hknown₁ hknown (len, digest) g hroot e he
        · rw [List.mem_singleton.1 he]
          exact hfile
      · exact hknown₁ hknown k g' hg' e he
    · rw [addMember, if_neg fun h => hmem (hin.2 h), membersAt]
      simp only [setGroup_root, getElem?_insert, hhash, if_true]
      simp [DupeExtents.members, ResultExtent.member]
    · intro k hk
      rw [membersAt, membersAt, ← hother k hk]
      simp only [setGroup_root, getElem?_insert, hhash, if_neg (Ne.symm hk)]

end Insert

end ResultsTree

end Duperemove
