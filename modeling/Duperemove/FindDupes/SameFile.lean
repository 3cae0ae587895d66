-- SUMMARY: When a round hands no two extents of one file to dedupe, although same-file dedupe is off.
import Duperemove.FindDupes.Search

/-!
# Two extents of one file

Without `dedupe_same_file` the search leaves out matches inside a file. That keeps
two ranges of a file out of one match, but not out of one group: the extents of a
group come from the table without a filter, and two matches with the same id
share a group. `NoSelfDuplicates` says on the hashfile that the pass over the
identical files leaves when no group has two extents of one file.
-/

namespace Duperemove

/-! ## Trees and places -/

namespace ResultsTree

/-- No group holds two extents of one record. -/
def NoSameFile (res : ResultsTree) : Prop :=
  ∀ (k : Nat × DigestBytes) (g : DupeExtents), res.root[k]? = some g →
    g.deExtents.Pairwise fun a b => a.eFile.addr ≠ b.eFile.addr

theorem noSameFile_iff {res : ResultsTree} :
    res.NoSameFile ↔ ∀ k addr loff loff', res.HasPlace k (addr, loff) →
      res.HasPlace k (addr, loff') → loff = loff' := by
  constructor
  · rintro h k addr loff loff' ⟨g, hg, hin⟩ ⟨g', hg', hin'⟩
    rw [hg] at hg'
    cases hg'
    obtain ⟨e, he, hkey⟩ := (g.mem_root _).1 hin
    obtain ⟨e', he', hkey'⟩ := (g.mem_root _).1 hin'
    simp only [ResultExtent.key, Prod.mk.injEq] at hkey hkey'
    have hnodup : (g.deExtents.map fun e => e.eFile.addr).Nodup := List.pairwise_map.2 (h k g hg)
    have hsame := List.inj_on_of_nodup_map hnodup he he' (hkey.1.trans hkey'.1.symm)
    rw [← hkey.2, hsame, hkey'.2]
  · intro h k g hg
    have hkeys := g.keys_nodup
    rw [List.Nodup, List.pairwise_map] at hkeys
    refine hkeys.imp_of_mem fun {a b} ha hb hne haddr => hne ?_
    have hplace : ∀ e ∈ g.deExtents, res.HasPlace k e.key :=
      fun e he => ⟨g, hg, (g.mem_root _).2 ⟨e, he, rfl⟩⟩
    have hloff := h k b.eFile.addr a.eLoff b.eLoff (haddr ▸ hplace a ha) (hplace b hb)
    exact Prod.ext haddr hloff

/-- The records of each group. -/
def groupRecords (res : ResultsTree) : List (List Nat) :=
  res.groups.map fun g => g.deExtents.map fun e => e.eFile.addr

theorem noSameFile_iff_groupRecords {res : ResultsTree} :
    res.NoSameFile ↔ ∀ addrs ∈ res.groupRecords, addrs.Nodup := by
  simp only [NoSameFile, groupRecords, List.forall_mem_map, mem_groups_iff, List.Nodup,
    List.pairwise_map]
  constructor
  · intro h g hg
    exact h _ g hg
  · intro h k g hg
    refine h g ?_
    rw [res.keyed k g hg]
    exact hg

end ResultsTree

/-- The places of the tree are those that `P` gives by file id, under the addresses of
    the records. -/
structure Holds (reg : Registry) (res : ResultsTree)
    (P : Nat × DigestBytes → Nat → Nat → Prop) : Prop where
  known : ∀ k id loff, P k id loff → ∃ r, reg.filerecFind id = some r
  places : ∀ k addr loff, res.HasPlace k (addr, loff) ↔
    ∃ id r, reg.filerecFind id = some r ∧ r.addr = addr ∧ P k id loff

section Holds

variable {reg reg' : Registry} {res : ResultsTree} {P Q : Nat × DigestBytes → Nat → Nat → Prop}

theorem Holds.congr (h : Holds reg res P) (hiff : ∀ k id loff, P k id loff ↔ Q k id loff) :
    Holds reg res Q := by
  refine ⟨fun k id loff hq => h.known k id loff ((hiff k id loff).2 hq), fun k addr loff => ?_⟩
  rw [h.places k addr loff]
  simp only [hiff]

/-- More records do not change where the extents are. -/
theorem Holds.mono (h : Holds reg res P)
    (hkeep : ∀ id r, reg.filerecFind id = some r → reg'.filerecFind id = some r) :
    Holds reg' res P := by
  constructor
  · intro k id loff hp
    obtain ⟨r, hr⟩ := h.known k id loff hp
    exact ⟨r, hkeep id r hr⟩
  · intro k addr loff
    rw [h.places k addr loff]
    constructor
    · rintro ⟨id, r, hr, haddr, hp⟩
      exact ⟨id, r, hkeep id r hr, haddr, hp⟩
    · rintro ⟨id, r, hr, haddr, hp⟩
      obtain ⟨r', hr'⟩ := h.known k id loff hp
      have hsame := hkeep id r' hr'
      rw [hr] at hsame
      cases hsame
      exact ⟨id, r, hr', haddr, hp⟩

/-- Records are one to one with file ids, so a tree is free of two extents of a file
    when `P` gives each file one offset under each key. -/
theorem Holds.noSameFile_iff (h : Holds reg res P) :
    res.NoSameFile ↔ ∀ k id loff loff', P k id loff → P k id loff' → loff = loff' := by
  rw [ResultsTree.noSameFile_iff]
  constructor
  · intro hone k id loff loff' hp hp'
    obtain ⟨r, hr⟩ := h.known k id loff hp
    exact hone k r.addr loff loff' ((h.places _ _ _).2 ⟨id, r, hr, rfl, hp⟩)
      ((h.places _ _ _).2 ⟨id, r, hr, rfl, hp'⟩)
  · intro hone k addr loff loff' hin hin'
    obtain ⟨id, r, hr, haddr, hp⟩ := (h.places _ _ _).1 hin
    obtain ⟨id', r', hr', haddr', hp'⟩ := (h.places _ _ _).1 hin'
    have hid := reg.addr_inj id id' r r' hr hr' (haddr.trans haddr'.symm)
    subst hid
    exact hone k id loff loff' hp hp'

/-- The places of a loaded tree. -/
theorem holds_of_known (hknown : res.Known reg) :
    Holds reg res fun k id loff => ∃ g, res.root[k]? = some g ∧
      ∃ m ∈ g.members, m.fileid = id ∧ m.loff = loff := by
  constructor
  · rintro k id loff ⟨g, hg, m, hm, rfl, -⟩
    obtain ⟨e, he, rfl⟩ := List.mem_map.1 hm
    exact ⟨e.eFile, hknown k g hg e he⟩
  · intro k addr loff
    constructor
    · rintro ⟨g, hg, hin⟩
      obtain ⟨e, he, hkey⟩ := (g.mem_root _).1 hin
      simp only [ResultExtent.key, Prod.mk.injEq] at hkey
      exact ⟨_, e.eFile, hknown k g hg e he, hkey.1, g, hg, e.member, List.mem_map_of_mem he, rfl,
        hkey.2⟩
    · rintro ⟨id, r, hr, rfl, g, hg, m, hm, rfl, rfl⟩
      obtain ⟨e, he, rfl⟩ := List.mem_map.1 hm
      have hrec := hknown k g hg e he
      have hid : e.member.fileid = e.eFile.fileid := rfl
      rw [hid, hrec] at hr
      cases hr
      exact ⟨g, hg, (g.mem_root _).2 ⟨e, he, rfl⟩⟩

/-- The members of the groups that an exact load leaves. -/
theorem IsExactGroup.mem_iff {digest : DigestBytes} {len : Nat} {shared : List Member}
    {hasCurrent : Prop} (h : IsExactGroup (res.findDupeExtents digest len) digest len shared
      hasCurrent) (m : Member) :
    (∃ g, res.root[(len, digest)]? = some g ∧ m ∈ g.members) ↔
      (2 ≤ shared.length ∧ hasCurrent) ∧ m ∈ shared := by
  rw [← h.loaded_iff]
  constructor
  · rintro ⟨g, hg, hm⟩
    exact ⟨Option.isSome_of_eq_some hg, (h.members_perm g hg).mem_iff.1 hm⟩
  · rintro ⟨hsome, hm⟩
    obtain ⟨g, hg⟩ := Option.isSome_iff_exists.1 hsome
    exact ⟨g, hg, (h.members_perm g hg).mem_iff.2 hm⟩

end Holds

/-! ## Matches between two files -/

/-- The length and the digest under which a match is inserted. -/
def FileMatch.key (m : FileMatch) : Nat × DigestBytes :=
  (Word.wrap 64 (Word.sub 64 m.found.eoff.1 m.found.soff.1 + 1), toDigest m.found.digest)

/-- One of the two ranges of a match starts at this offset of this file. -/
def FileMatch.StartsAt (m : FileMatch) (id loff : Nat) : Prop :=
  (id = m.files.1 ∧ loff = m.found.soff.1) ∨ (id = m.files.2 ∧ loff = m.found.soff.2)

/-- `compare_extents` finds the match from an extent of one file that no other extent
    equals, and a block of another file with the digest of the block where the extent
    starts. -/
inductive BlockMatched (blocksize : Nat) (h : Xxh DigestBytes) (db : BlockHashfile) (seq : Nat) :
    FileMatch → Prop where
  | mk {fileid i j : Nat} {x : ExtentRow} {block : FileBlock} {p : BlockRow × FileRow}
      {ms : List BlockMatch} {m : BlockMatch}
      (hsize : db.fileSize fileid ≠ 0)
      (hx : x ∈ getNondupeExtents db.toTables fileid)
      (hi : db.findFilerecBlock seq fileid x.loff = some i)
      (hblock : (db.blockTree seq fileid)[i]? = some block)
      (hp : p ∈ getDuplicateBlocks db.toTables seq)
      (hdigest : p.1.digest.toList = block.digest)
      (hother : p.1.fileid ≠ fileid)
      (hj : db.findFilerecBlock seq p.1.fileid p.1.loff = some j)
      (hrun : compareExtents h.asBytes blocksize (db.blockFile seq fileid)
        (db.blockFile seq p.1.fileid) i j x.len = some ms)
      (hm : m ∈ ms) : BlockMatched blocksize h db seq ⟨(fileid, p.1.fileid), m⟩

section Search

variable {opts : DedupeOptions} {blocksize : Nat} {h : Xxh DigestBytes}
variable {db : BlockHashfile} {seq : Nat} {rows : QueryRows db.toTables seq}

theorem mem_searchBlock (hsame : opts.dedupeSameFile = false) {fileid i : Nat} {x : ExtentRow}
    {found : BlockRow} {m : FileMatch} :
    m ∈ @searchBlock opts blocksize h db seq fileid x i found ↔
      found.fileid ≠ fileid ∧ ∃ j, db.findFilerecBlock seq found.fileid found.loff = some j ∧
        ∃ ms, compareExtents h.asBytes blocksize (db.blockFile seq fileid)
          (db.blockFile seq found.fileid) i j x.len = some ms ∧
          ∃ bm ∈ ms, m = ⟨(fileid, found.fileid), bm⟩ := by
  unfold searchBlock
  by_cases hfile : found.fileid = fileid
  · simp [hfile, hsame]
  · simp only [hfile, false_and, and_false, if_false, ne_eq, not_false_eq_true, true_and]
    cases hj : db.findFilerecBlock seq found.fileid found.loff with
    | none => simp
    | some j =>
      simp only [Option.some.injEq, exists_eq_left', List.mem_map]
      cases compareExtents h.asBytes blocksize (db.blockFile seq fileid)
        (db.blockFile seq found.fileid) i j x.len with
      | none => simp
      | some ms => simp [eq_comm]

/-- Without `dedupe_same_file` the search of a file finds its matches with other
    files. -/
theorem mem_searchFileExtents (hsame : opts.dedupeSameFile = false) {fileid : Nat}
    (hsize : db.fileSize fileid ≠ 0) {m : FileMatch} :
    m ∈ searchFileExtents opts blocksize h rows fileid ↔
      BlockMatched blocksize h db seq m ∧ m.files.1 = fileid := by
  rw [searchFileExtents, List.mem_flatMap]
  constructor
  · rintro ⟨x, hx, hm⟩
    unfold searchExtent at hm
    split at hm
    · cases hm
    · rename_i i hi
      split at hm
      · cases hm
      · rename_i block hblock
        obtain ⟨found, hfound, hm⟩ := List.mem_flatMap.1 hm
        obtain ⟨hother, j, hj, ms, hrun, bm, hbm, rfl⟩ := (mem_searchBlock hsame).1 hm
        obtain ⟨hin, hdigest⟩ := List.mem_filter.1 hfound
        obtain ⟨p, hp, rfl⟩ := List.mem_map.1 hin
        exact ⟨.mk hsize hx hi hblock (rows.blocks_perm.mem_iff.1 hp) (of_decide_eq_true hdigest)
          hother hj hrun hbm, rfl⟩
  · rintro ⟨hmatched, rfl⟩
    cases hmatched with
    | @mk fileid i j x block p ms m _ hx hi hblock hp hdigest hother hj hrun hm =>
      refine ⟨x, hx, ?_⟩
      simp only [searchExtent, hi, hblock]
      refine List.mem_flatMap.2 ⟨p.1, ?_, (mem_searchBlock hsame).2
        ⟨hother, j, hj, ms, hrun, m, hm, rfl⟩⟩
      refine List.mem_filter.2 ⟨?_, decide_eq_true hdigest⟩
      exact List.mem_map_of_mem (rows.blocks_perm.mem_iff.2 hp)

/-- The calls of all search workers together. -/
theorem mem_searchJobs (hsame : opts.dedupeSameFile = false) {reg : Registry} {p : ResultPair} :
    p ∈ (searchJobs opts blocksize h rows reg).flatten ↔
      ∃ m, BlockMatched blocksize h db seq m ∧ m.pair reg = some p := by
  simp only [searchJobs, List.mem_flatten, List.mem_map, exists_exists_and_eq_and]
  constructor
  · rintro ⟨fileid, -, hp⟩
    split at hp
    · cases hp
    · rename_i hsize
      obtain ⟨m, hm, hpair⟩ := List.mem_filterMap.1 hp
      exact ⟨m, ((mem_searchFileExtents hsame hsize).1 hm).1, hpair⟩
  · rintro ⟨m, hm, hpair⟩
    have hsize : db.fileSize m.files.1 ≠ 0 := by
      cases hm
      assumption
    obtain ⟨r, hr, -⟩ := Option.bind_eq_some_iff.1 hpair
    refine ⟨m.files.1, ?_, ?_⟩
    · rw [Std.TreeMap.mem_keys, Std.TreeMap.mem_iff_isSome_getElem?]
      exact Option.isSome_of_eq_some hr
    · rw [if_neg hsize]
      exact List.mem_filterMap.2 ⟨m, (mem_searchFileExtents hsame hsize).2 ⟨hm, rfl⟩, hpair⟩

/-- Both files of a match have blocks in the tree. -/
theorem BlockMatched.loaded {m : FileMatch} (hm : BlockMatched blocksize h db seq m) :
    (∃ p ∈ getDuplicateBlocks db.toTables seq, p.1.fileid = m.files.1) ∧
      ∃ p ∈ getDuplicateBlocks db.toTables seq, p.1.fileid = m.files.2 := by
  cases hm with
  | mk _ _ _ hblock hp _ _ _ _ _ =>
    have hin := (db.mem_blockTree seq).1 (List.mem_of_getElem? hblock)
    obtain ⟨p', hp', hid, -⟩ := (db.mem_loadedBlocks seq).1 hin
    exact ⟨⟨p', hp', hid⟩, _, hp, rfl⟩

/-- Loading blocks gives each of their files a record, and keeps the others. -/
theorem dbfileLoadBlockHashes_spec {t : Tables} {blocks : List (BlockRow × FileRow)}
    (hfiles : ∀ p ∈ blocks, ∃ f ∈ t.files, f.id = p.1.fileid) (reg : Registry) :
    ∃ reg', dbfileLoadBlockHashes t blocks reg = some reg' ∧
      (∀ id r, reg.filerecFind id = some r → reg'.filerecFind id = some r) ∧
      ∀ p ∈ blocks, ∃ r, reg'.filerecFind p.1.fileid = some r := by
  induction blocks generalizing reg with
  | nil => exact ⟨reg, rfl, fun _ _ hr => hr, by simp⟩
  | cons p blocks ih =>
    obtain ⟨info, hinfo⟩ := dbfileLoadOneFilerec_isSome (hfiles p List.mem_cons_self)
    obtain ⟨r, reg₁, hof, -, hfind, hkeep₁⟩ := reg.filerecOf_spec p.1.fileid info
    obtain ⟨reg', hload, hkeep, hall⟩ := ih (fun p hp => hfiles p (List.mem_cons_of_mem _ hp)) reg₁
    refine ⟨reg', Steps.run_cons.2 ⟨reg₁, by rw [hinfo, hof]; rfl, hload⟩,
      fun id r hr => hkeep id r (hkeep₁ id r hr), ?_⟩
    intro p' hp'
    rcases List.mem_cons.1 hp' with rfl | hp'
    · exact ⟨r, hkeep _ r hfind⟩
    · exact hall p' hp'

/-- What the search adds to a tree. -/
theorem Holds.search {reg : Registry} {res res' : ResultsTree}
    {P : Nat × DigestBytes → Nat → Nat → Prop} (hold : Holds reg res P)
    (hrecs : ∀ m, BlockMatched blocksize h db seq m →
      ∃ r r', reg.filerecFind m.files.1 = some r ∧ reg.filerecFind m.files.2 = some r')
    (hplaces : ∀ k x, res'.HasPlace k x ↔ (res.HasPlace k x ∨ ∃ p,
      (∃ m, BlockMatched blocksize h db seq m ∧ m.pair reg = some p) ∧ p.key = k ∧ p.HasPlace x)) :
    Holds reg res' fun k id loff => P k id loff ∨
      ∃ m, BlockMatched blocksize h db seq m ∧ m.key = k ∧ m.StartsAt id loff := by
  constructor
  · rintro k id loff (hp | ⟨m, hm, -, ⟨rfl, -⟩ | ⟨rfl, -⟩⟩)
    · exact hold.known k id loff hp
    · obtain ⟨r, -, hr, -⟩ := hrecs m hm
      exact ⟨r, hr⟩
    · obtain ⟨-, r', -, hr'⟩ := hrecs m hm
      exact ⟨r', hr'⟩
  · intro k addr loff
    rw [hplaces, hold.places]
    constructor
    · rintro (⟨id, r, hr, haddr, hp⟩ | ⟨p, ⟨m, hm, hpair⟩, rfl, hplace⟩)
      · exact ⟨id, r, hr, haddr, .inl hp⟩
      · obtain ⟨r, r', hr, hr'⟩ := hrecs m hm
        rw [FileMatch.pair, hr, hr', Option.bind_some, Option.map_some, Option.some.injEq] at hpair
        subst hpair
        rcases hplace with hplace | hplace
        · obtain ⟨haddr, hloff⟩ := Prod.mk.inj hplace
          exact ⟨_, r, hr, haddr.symm, .inr ⟨m, hm, rfl, .inl ⟨rfl, hloff⟩⟩⟩
        · obtain ⟨haddr, hloff⟩ := Prod.mk.inj hplace
          exact ⟨_, r', hr', haddr.symm, .inr ⟨m, hm, rfl, .inr ⟨rfl, hloff⟩⟩⟩
    · rintro ⟨id, r₀, hr₀, rfl, hp | ⟨m, hm, rfl, hstarts⟩⟩
      · exact .inl ⟨id, r₀, hr₀, rfl, hp⟩
      · obtain ⟨r, r', hr, hr'⟩ := hrecs m hm
        refine .inr ⟨⟨toDigest m.found.digest, (r, r'), m.found.soff, m.found.eoff⟩,
          ⟨m, hm, by rw [FileMatch.pair, hr, hr']; rfl⟩, rfl, ?_⟩
        rcases hstarts with ⟨rfl, rfl⟩ | ⟨rfl, rfl⟩
        · rw [hr] at hr₀
          cases hr₀
          exact .inl rfl
        · rw [hr'] at hr₀
          cases hr₀
          exact .inr rfl

end Search

/-! ## The condition -/

/-- The extent belongs to a group that `dbfile_load_extent_hashes` loads. -/
def ExtentRow.Loaded (t : Tables) (seq : Nat) (e : ExtentRow) : Prop :=
  e ∈ sharedExtents t seq e.digest e.len ∧ 2 ≤ (sharedExtents t seq e.digest e.len).length ∧
    ∃ e' ∈ sharedExtents t seq e.digest e.len, e'.isCurrent t seq

/-- No file has two ranges under one length and digest: neither two extents, nor, with
    a search for blocks, two ranges of matches, nor an extent and a range of a match. -/
structure NoSelfDuplicates (doBlockHash : Bool) (blocksize : Nat) (h : Xxh DigestBytes)
    (db : BlockHashfile) (seq : Nat) : Prop where
  extents : ∀ e e' : ExtentRow, e.Loaded db.toTables seq → e'.Loaded db.toTables seq →
    (e.len, e.digest) = (e'.len, e'.digest) → e.fileid = e'.fileid → e.loff = e'.loff
  ranges : doBlockHash = true → ∀ m m', BlockMatched blocksize h db seq m →
    BlockMatched blocksize h db seq m' → m.key = m'.key →
    ∀ id loff loff', m.StartsAt id loff → m'.StartsAt id loff' → loff = loff'
  mixed : doBlockHash = true → ∀ (e : ExtentRow) m, e.Loaded db.toTables seq →
    BlockMatched blocksize h db seq m → m.key = (e.len, e.digest) →
    ∀ loff, m.StartsAt e.fileid loff → loff = e.loff

/-- Where the loaded extents and, with a search, the matches are. -/
def StartsUnder (doBlockHash : Bool) (blocksize : Nat) (h : Xxh DigestBytes) (db : BlockHashfile)
    (seq : Nat) (k : Nat × DigestBytes) (id loff : Nat) : Prop :=
  (∃ e : ExtentRow, e.Loaded db.toTables seq ∧ (e.len, e.digest) = k ∧ e.fileid = id ∧
      e.loff = loff) ∨
    (doBlockHash = true ∧ ∃ m, BlockMatched blocksize h db seq m ∧ m.key = k ∧ m.StartsAt id loff)

section Condition

variable {opts : DedupeOptions} {blocksize : Nat} {h : Xxh DigestBytes}
variable {db : BlockHashfile} {seq : Nat} {rows : QueryRows db.toTables seq}

theorem noSelfDuplicates_iff {doBlockHash : Bool} :
    NoSelfDuplicates doBlockHash blocksize h db seq ↔ ∀ k id loff loff',
      StartsUnder doBlockHash blocksize h db seq k id loff →
      StartsUnder doBlockHash blocksize h db seq k id loff' → loff = loff' := by
  constructor
  · rintro hno k id loff loff' (⟨e, he, rfl, rfl, rfl⟩ | ⟨hblock, m, hm, rfl, hstarts⟩)
      (⟨e', he', hkey, hid, rfl⟩ | ⟨hblock', m', hm', hkey, hstarts'⟩)
    · exact hno.extents e e' he he' hkey.symm hid.symm
    · exact (hno.mixed hblock' e m' he hm' hkey loff' hstarts').symm
    · exact hno.mixed hblock e' m he' hm hkey.symm loff (hid ▸ hstarts)
    · exact hno.ranges hblock m m' hm hm' hkey.symm id loff loff' hstarts hstarts'
  · intro hone
    constructor
    · intro e e' he he' hkey hid
      exact hone _ e.fileid _ _ (.inl ⟨e, he, rfl, rfl, rfl⟩)
        (.inl ⟨e', he', hkey.symm, hid.symm, rfl⟩)
    · intro hblock m m' hm hm' hkey id loff loff' hstarts hstarts'
      exact hone _ id _ _ (.inr ⟨hblock, m, hm, rfl, hstarts⟩)
        (.inr ⟨hblock, m', hm', hkey.symm, hstarts'⟩)
    · intro hblock e m he hm hkey loff hstarts
      exact hone _ e.fileid _ _ (.inr ⟨hblock, m, hm, hkey, hstarts⟩)
        (.inl ⟨e, he, rfl, rfl, rfl⟩)

/-- A whole file is in its group once. -/
theorem dbfileLoadSameFiles_noSameFile {reg : Registry} {s : LoadState}
    (hload : dbfileLoadSameFiles rows.files ⟨reg, .empty⟩ = some s) : s.res.NoSameFile := by
  obtain ⟨s', hload', hknown, hexact⟩ :=
    dbfileLoadSameFiles_exact db.toHashfile seq reg rows.files_perm
  rw [hload] at hload'
  cases hload'
  rw [(holds_of_known hknown).noSameFile_iff]
  have hzero : ∀ (k : Nat × DigestBytes) (g : DupeExtents), s.res.root[k]? = some g →
      ∀ m ∈ g.members, m.loff = 0 := by
    rintro ⟨len, digest⟩ g hg m hm
    obtain ⟨-, hshared⟩ := ((hexact digest len).mem_iff m).1 ⟨g, hg, hm⟩
    obtain ⟨f, -, rfl⟩ := List.mem_map.1 hshared
    rfl
  rintro k id loff loff' ⟨g, hg, m, hm, -, rfl⟩ ⟨g', hg', m', hm', -, rfl⟩
  rw [hzero k g hg m hm, hzero k g' hg' m' hm']

/-- The loaded tree holds the loaded extents. -/
theorem dbfileLoadExtentHashes_holds {reg : Registry} {s : LoadState}
    (hload : dbfileLoadExtentHashes db.toTables rows.extents ⟨reg, .empty⟩ = some s) :
    Holds s.reg s.res fun k id loff => ∃ e : ExtentRow, e.Loaded db.toTables seq ∧
      (e.len, e.digest) = k ∧ e.fileid = id ∧ e.loff = loff := by
  obtain ⟨s', hload', hknown, hexact⟩ :=
    dbfileLoadExtentHashes_exact db.toHashfile seq reg rows.extents_perm
  rw [hload] at hload'
  cases hload'
  refine (holds_of_known hknown).congr ?_
  rintro ⟨len, digest⟩ id loff
  constructor
  · rintro ⟨g, hg, m, hm, rfl, rfl⟩
    obtain ⟨⟨htwo, hcurrent⟩, hshared⟩ := ((hexact digest len).mem_iff m).1 ⟨g, hg, hm⟩
    rw [List.length_map] at htwo
    obtain ⟨e, he, rfl⟩ := List.mem_map.1 hshared
    have hkey := of_decide_eq_true (List.mem_filter.1 he).2
    obtain ⟨rfl, rfl, -⟩ := hkey
    exact ⟨e, ⟨he, htwo, hcurrent⟩, rfl, rfl, rfl⟩
  · rintro ⟨e, ⟨he, htwo, hcurrent⟩, hkey, rfl, rfl⟩
    cases hkey
    obtain ⟨g, hg, hm⟩ := ((hexact e.digest e.len).mem_iff e.member).2
      ⟨⟨by rwa [List.length_map], hcurrent⟩, List.mem_map_of_mem he⟩
    exact ⟨g, hg, e.member, hm, rfl, rfl⟩

theorem dbfileLoadExtentHashes_consistent {t : Tables} {extents : List (ExtentRow × FileRow)}
    {s s' : LoadState} (hs : s.res.Consistent)
    (hload : dbfileLoadExtentHashes t extents s = some s') : s'.res.Consistent := by
  refine Steps.run_keeps (fun s => s.res.Consistent) ?_ hs hload
  intro p _ s s' hs hrow
  obtain ⟨⟨file, reg⟩, -, hrow⟩ := Option.bind_eq_some_iff.1 hrow
  obtain ⟨res, hins, rfl⟩ := Option.map_eq_some_iff.1 hrow
  obtain ⟨res', hins', hres'⟩ := hs.insertOneResult p.1.digest file p.1.loff p.1.len p.1.poff
  rw [hins] at hins'
  cases hins'
  exact hres'

/-- The tree after the search holds the loaded extents and the matches. -/
theorem findAdditionalDedupe_holds (hsame : opts.dedupeSameFile = false) {reg reg' : Registry}
    {s : LoadState} {res : ResultsTree} {schedule : List Nat}
    (hextents : dbfileLoadExtentHashes db.toTables rows.extents ⟨reg, .empty⟩ = some s)
    (hblocks : dbfileLoadBlockHashes db.toTables rows.blocks s.reg = some reg')
    (hsearch : findAdditionalDedupe opts blocksize h rows reg' s.res schedule = some res) :
    Holds reg' res (StartsUnder true blocksize h db seq) := by
  obtain ⟨pool, hrun, hdone⟩ := Option.bind_eq_some_iff.1 hsearch
  split at hdone
  · rename_i hidle
    cases hdone
    have hbalanced :=
      (dbfileLoadExtentHashes_consistent ResultsTree.consistent_empty hextents).balanced
    obtain ⟨pool', hrun', hinserts⟩ := (SearchPool.inserts_start hbalanced
      (searchJobs opts blocksize h rows reg')).run schedule
    rw [hrun] at hrun'
    cases hrun'
    obtain ⟨-, hplaces, -⟩ := hinserts.done hidle
    have hfiles : ∀ p ∈ rows.blocks, ∃ f ∈ db.files, f.id = p.1.fileid := by
      intro p hp
      obtain ⟨-, hf, hid⟩ := mem_getDuplicateBlocks (rows.blocks_perm.mem_iff.1 hp)
      exact ⟨p.2, hf, hid.symm⟩
    obtain ⟨reg'', hload, hkeep, hrecs⟩ := dbfileLoadBlockHashes_spec hfiles s.reg
    rw [hblocks] at hload
    cases hload
    have hboth : ∀ m, BlockMatched blocksize h db seq m →
        ∃ r r', reg'.filerecFind m.files.1 = some r ∧ reg'.filerecFind m.files.2 = some r' := by
      intro m hm
      obtain ⟨⟨p, hp, hid⟩, p', hp', hid'⟩ := hm.loaded
      obtain ⟨r, hr⟩ := hrecs p (rows.blocks_perm.mem_iff.2 hp)
      obtain ⟨r', hr'⟩ := hrecs p' (rows.blocks_perm.mem_iff.2 hp')
      exact ⟨r, r', hid ▸ hr, hid' ▸ hr'⟩
    refine (((dbfileLoadExtentHashes_holds hextents).mono hkeep).search hboth ?_).congr ?_
    · intro k x
      rw [hplaces k x]
      simp only [mem_searchJobs hsame]
    · intro k id loff
      simp only [StartsUnder, true_and]
  · cases hdone

end Condition

section Round

variable {opts : DedupeOptions} {blocksize : Nat} {h : Xxh DigestBytes} {seq : Nat}
variable {rows : ∀ t, QueryRows t seq} {w : PassWorld} {wholeSchedule schedule : List Nat}
variable {db : BlockHashfile} {files : LoadState} {trees : List ResultsTree}

/-- A round behind the load of the identical files. -/
theorem processDuplicatesRound_eq
    (hfiles : dbfileLoadSameFiles (rows db.toTables).files ⟨.empty, .empty⟩ = some files) :
    processDuplicatesRound opts blocksize h rows w wholeSchedule schedule db =
      (if opts.runDedupe then dedupeWholeFiles w wholeSchedule db files.res else some db).bind
        fun db => loadExtents opts blocksize h (rows db.toTables) files schedule := by
  rw [processDuplicatesRound, hfiles, Option.bind_some]

/-- What the second half of a round passes to dedupe. -/
theorem loadExtents_noSameFile_iff {db' : BlockHashfile} {rows : QueryRows db'.toTables seq}
    (hrun : opts.runDedupe = true) (hsame : opts.dedupeSameFile = false)
    (hwhole : files.res.NoSameFile)
    (hload : loadExtents opts blocksize h rows files schedule = some trees) :
    (∀ res ∈ trees, res.NoSameFile) ↔
      (opts.onlyWholeFiles = true ∨ NoSelfDuplicates opts.doBlockHash blocksize h db' seq) := by
  have hpassed : ∀ trees, opts.toDedupe trees = trees := fun trees => by
    rw [DedupeOptions.toDedupe, if_pos hrun]
  simp only [loadExtents, hpassed] at hload
  split at hload
  · rename_i honly
    cases hload
    simp [hwhole, honly]
  · rename_i honly
    obtain ⟨extents, hextents, hload⟩ := Option.bind_eq_some_iff.1 hload
    have hsecond : ∀ {reg : Registry} {res : ResultsTree}, trees = [files.res, res] →
        Holds reg res (StartsUnder opts.doBlockHash blocksize h db' seq) →
        ((∀ res ∈ trees, res.NoSameFile) ↔
          (opts.onlyWholeFiles = true ∨ NoSelfDuplicates opts.doBlockHash blocksize h db' seq)) := by
      rintro reg res rfl hholds
      simp only [List.mem_cons, List.not_mem_nil, or_false, forall_eq_or_imp, forall_eq, hwhole,
        true_and, honly, Bool.false_eq_true, false_or, hholds.noSameFile_iff,
        noSelfDuplicates_iff]
    split at hload
    · rename_i hblock
      obtain ⟨reg, hblocks, hload⟩ := Option.bind_eq_some_iff.1 hload
      obtain ⟨res, hsearch, htrees⟩ := Option.map_eq_some_iff.1 hload
      have hholds := findAdditionalDedupe_holds hsame hextents hblocks hsearch
      rw [← hblock] at hholds
      exact hsecond htrees.symm hholds
    · rename_i hblock
      cases hload
      refine hsecond rfl ((dbfileLoadExtentHashes_holds hextents).congr fun k id loff => ?_)
      simp only [StartsUnder, hblock, Bool.false_eq_true, false_and, or_false]

/-- With same-file dedupe switched off, the trees that a round passes to dedupe are free
    of groups with two extents of one file exactly when, in the hashfile that the pass over
    the identical files leaves, no file has two ranges under one length and digest. -/
theorem processDuplicatesRound_noSameFile_iff (hsame : opts.dedupeSameFile = false)
    (hfiles : dbfileLoadSameFiles (rows db.toTables).files ⟨.empty, .empty⟩ = some files)
    (hround : processDuplicatesRound opts blocksize h rows w wholeSchedule schedule db =
      some trees) :
    (∀ res ∈ trees, res.NoSameFile) ↔
      (opts.runDedupe = false ∨ opts.onlyWholeFiles = true ∨
        NoSelfDuplicates opts.doBlockHash blocksize h (db.behind (w.hashOps files.res)) seq) := by
  have hwhole := dbfileLoadSameFiles_noSameFile hfiles
  rw [processDuplicatesRound_eq hfiles] at hround
  obtain ⟨db', hpass, hload⟩ := Option.bind_eq_some_iff.1 hround
  cases hrun : opts.runDedupe with
  | false =>
    have hnone : trees = [] := loadExtents_toDedupe hrun hload
    simp [hnone]
  | true =>
    rw [hrun, if_pos rfl] at hpass
    rw [← dedupeWholeFiles_eq hpass, loadExtents_noSameFile_iff hrun hsame hwhole hload]
    simp

end Round

/-! ## Two rounds -/

/-- The hash that keeps the first bytes of the message. -/
def Xxh.firstBytes : Xxh DigestBytes where
  xxh128 := toDigest
  digest := fun chunks => toDigest chunks.flatten
  digest_eq := fun _ => rfl

/-- Two files that have their first block in common, and no extent, and two identical
    files, in which an extent is there twice. -/
def twinsAndBlock : BlockHashfile where
  files := [⟨1, "/a", 10, 0, 8192, 5, 1, some (.replicate 16 1), some 0⟩,
    ⟨2, "/b", 11, 0, 4096, 6, 1, some (.replicate 16 2), some 0⟩,
    ⟨3, "/c", 12, 0, 8192, 7, 1, some (.replicate 16 5), some 0⟩,
    ⟨4, "/d", 13, 0, 8192, 8, 1, some (.replicate 16 5), some 0⟩]
  extents := [⟨.replicate 16 3, 1, 0, 65536, 8192⟩, ⟨.replicate 16 4, 2, 0, 131072, 4096⟩,
    ⟨.replicate 16 6, 3, 0, 196608, 4096⟩, ⟨.replicate 16 6, 3, 4096, 262144, 4096⟩,
    ⟨.replicate 16 6, 4, 0, 327680, 4096⟩, ⟨.replicate 16 6, 4, 4096, 393216, 4096⟩]
  blocks := [⟨.replicate 16 7, 1, 0⟩, ⟨.replicate 16 8, 1, 4096⟩, ⟨.replicate 16 7, 2, 0⟩]
  constraints := by
    constructor <;> decide
  size_lt := by decide
  loff_lt := by decide

/-- The pass over the two identical files drops their extents, and the search finds the
    common block of the two others. -/
theorem processDuplicatesRound_noSameFile_twinsAndBlock :
    ∃ files trees, dbfileLoadSameFiles (getDuplicateFiles twinsAndBlock.toTables 1)
        ⟨.empty, .empty⟩ = some files ∧
      processDuplicatesRound ⟨true, false, true, false⟩ 4096 .firstBytes
        (fun t => .inOrder t 1) pagePass [0] [2, 2, 2, 2, 3, 3, 3] twinsAndBlock = some trees ∧
      trees.map ResultsTree.numExtents = [2, 2] ∧ (∀ res ∈ trees, res.NoSameFile) ∧
      NoSelfDuplicates true 4096 .firstBytes
        (twinsAndBlock.behind (pagePass.hashOps files.res)) 1 := by
  have heval : (processDuplicatesRound ⟨true, false, true, false⟩ 4096 .firstBytes
      (fun t => .inOrder t 1) pagePass [0] [2, 2, 2, 2, 3, 3, 3] twinsAndBlock).map (fun trees =>
        (trees.map ResultsTree.numExtents, trees.map ResultsTree.groupRecords)) =
      some ([2, 2], [[[0, 1]], [[3, 2]]]) := by
    decide +kernel
  obtain ⟨trees, hround, hend⟩ := Option.map_eq_some_iff.1 heval
  obtain ⟨hcounts, hrecords⟩ := Prod.mk.inj hend
  have hno : ∀ res ∈ trees, res.NoSameFile := by
    intro res hres
    rw [ResultsTree.noSameFile_iff_groupRecords]
    have hin := List.mem_map_of_mem (f := ResultsTree.groupRecords) hres
    rw [hrecords] at hin
    revert hin
    generalize res.groupRecords = records
    simp only [List.mem_cons, List.not_mem_nil, or_false]
    rintro (rfl | rfl)
    · decide
    · decide
  obtain ⟨files, hfiles, -, -⟩ :=
    dbfileLoadSameFiles_exact twinsAndBlock.toHashfile 1 .empty (List.Perm.refl _)
  have hcondition := (processDuplicatesRound_noSameFile_iff rfl hfiles hround).1 hno
  refine ⟨files, trees, hfiles, hround, hcounts, hno, ?_⟩
  rcases hcondition with hrun | hwhole | hcondition
  · cases hrun
  · cases hwhole
  · exact hcondition

/-- A file with the same extent at two offsets. -/
def repeatedExtent : BlockHashfile where
  files := [⟨1, "/a", 10, 0, 8192, 5, 1, some (.replicate 16 1), some 0⟩]
  extents := [⟨.replicate 16 3, 1, 0, 65536, 4096⟩, ⟨.replicate 16 3, 1, 4096, 131072, 4096⟩]
  blocks := []
  constraints := by
    constructor <;> decide
  size_lt := by decide
  loff_lt := by decide

/-- Both of them go to dedupe, in one group. -/
theorem processDuplicatesRound_repeatedExtent :
    ∃ trees, processDuplicatesRound ⟨true, false, false, false⟩ 4096 .firstBytes
        (fun t => .inOrder t 1) pagePass [] [] repeatedExtent = some trees ∧
      ∃ res ∈ trees, ¬ res.NoSameFile := by
  have heval : (processDuplicatesRound ⟨true, false, false, false⟩ 4096 .firstBytes
      (fun t => .inOrder t 1) pagePass [] [] repeatedExtent).map (fun trees =>
        trees.map ResultsTree.groupRecords) = some [[], [[0, 0]]] := by
    decide +kernel
  obtain ⟨trees, hround, hrecords⟩ := Option.map_eq_some_iff.1 heval
  have hin : [[0, 0]] ∈ trees.map ResultsTree.groupRecords := by
    rw [hrecords]
    simp
  obtain ⟨res, hres, hgroups⟩ := List.mem_map.1 hin
  refine ⟨trees, hround, res, hres, fun hno => ?_⟩
  have hnodup := ResultsTree.noSameFile_iff_groupRecords.1 hno [0, 0] (by rw [hgroups]; simp)
  exact absurd hnodup (by decide)

end Duperemove
