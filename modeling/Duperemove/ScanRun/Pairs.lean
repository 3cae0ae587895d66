-- SUMMARY: The pairs of duplicates that `process_duplicates` brings together do not depend on the batches.
import Duperemove.Dbfile.Load
import Duperemove.ScanRun.Batches

/-!
# Pairs of duplicates

`process_duplicates` goes through the sequence numbers behind the one of the
hashfile and loads the duplicates of each batch. Two files with the same content
come together in the batch of the later one of all files with that content. So
it only matters which files are new, and batches lose nothing.
-/

namespace Duperemove

open Transaction (Answer Conn)

-- ---------------------------------------------------------------------------
-- `process_duplicates`
-- ---------------------------------------------------------------------------

/-- `get_max_dedupe_seq`. Without rows the maximum is NULL, which reads as zero,
    and the result is an `unsigned int`. -/
def getMaxDedupeSeq (t : Tables) : Nat :=
  match (t.files.map FileRow.dedupeSeq).max? with
  | none => 0
  | some n => (n % 2 ^ 32).toNat

/-- The arguments of the queries in the rounds of `process_duplicates`: the
    counter goes from the number of the hashfile to the maximum, and a round
    loads the number behind it. -/
def processedSeqs (dedupeSeq : Nat) (t : Tables) : List Nat :=
  (List.range' dedupeSeq (getMaxDedupeSeq t - dedupeSeq)).map (· + 1)

/-- The two loads of `__process_duplicates`, without the search for blocks. A
    round starts without file records. -/
def processDuplicates (options : Options) (t : Tables) (fileRows : List FileRow)
    (extentRows : List (ExtentRow × FileRow)) : Option (ResultsTree × ResultsTree) :=
  (dbfileLoadSameFiles fileRows ⟨.empty, .empty⟩).bind fun s =>
    if options.onlyWholeFiles then some (s.res, .empty)
    else (dbfileLoadExtentHashes t extentRows ⟨s.reg, .empty⟩).map fun s' => (s.res, s'.res)

/-- Two members of one group of the results. -/
def ResultsTree.Together (res : ResultsTree) (digest : DigestBytes) (len : Nat) (a b : Member) :
    Prop :=
  ∃ g, res.findDupeExtents digest len = some g ∧ a ∈ g.members ∧ b ∈ g.members

/-- What some round finds, in whatever order SQLite returns the rows. -/
def SomeRound (options : Options) (dedupeSeq : Nat) (t : Tables)
    (P : ResultsTree × ResultsTree → Prop) : Prop :=
  ∃ seq ∈ processedSeqs dedupeSeq t, ∃ fileRows extentRows res,
    fileRows.Perm (getDuplicateFiles t seq) ∧ extentRows.Perm (getDuplicateExtents t seq) ∧
    processDuplicates options t fileRows extentRows = some res ∧ P res

/-- Two files come together in some round. -/
def FilesTogether (options : Options) (dedupeSeq : Nat) (t : Tables) (digest : DigestBytes)
    (size : Nat) (a b : Member) : Prop :=
  SomeRound options dedupeSeq t fun res => res.1.Together digest size a b

/-- Two extents come together in some round. -/
def ExtentsTogether (options : Options) (dedupeSeq : Nat) (t : Tables) (digest : DigestBytes)
    (len : Nat) (a b : Member) : Prop :=
  SomeRound options dedupeSeq t fun res => res.2.Together digest len a b

-- ---------------------------------------------------------------------------
-- The rounds
-- ---------------------------------------------------------------------------

theorem mem_processedSeqs {d seq : Nat} {t : Tables} :
    seq ∈ processedSeqs d t ↔ d < seq ∧ seq ≤ getMaxDedupeSeq t := by
  simp only [processedSeqs, List.mem_map, List.mem_range'_1]
  constructor
  · rintro ⟨i, ⟨hlo, hhi⟩, rfl⟩
    omega
  · rintro ⟨hlo, hhi⟩
    exact ⟨seq - 1, by omega, by omega⟩

/-- The maximum is right as long as the numbers are small. -/
theorem le_getMaxDedupeSeq {t : Tables} (hlt : ∀ f ∈ t.files, f.dedupeSeq < 2 ^ 31) {f : FileRow}
    (hf : f ∈ t.files) (hpos : 0 < f.dedupeSeq) : f.dedupeSeq ≤ getMaxDedupeSeq t := by
  have hin : f.dedupeSeq ∈ t.files.map FileRow.dedupeSeq := List.mem_map_of_mem hf
  unfold getMaxDedupeSeq
  cases hmax : (t.files.map FileRow.dedupeSeq).max? with
  | none =>
    rw [List.max?_eq_none_iff.1 hmax] at hin
    cases hin
  | some n =>
    obtain ⟨hmem, hall⟩ := List.max?_eq_some_iff.1 hmax
    obtain ⟨g, hg, rfl⟩ := List.mem_map.1 hmem
    have hle := hall _ hin
    have hsmall := hlt g hg
    simp only
    omega

-- ---------------------------------------------------------------------------
-- Which round
-- ---------------------------------------------------------------------------

/-- Among the rows that share a key, some round sees two given ones together with
    a current one exactly when one of the rows is new: the round of the latest
    row sees them all. -/
theorem exists_round_iff {ρ : Type} {rows : List ρ} {seqOf : ρ → Int} {d max : Nat}
    (hmax : ∀ r ∈ rows, d < seqOf r → seqOf r ≤ max) (member : ρ → Member) (a b : Member) :
    (∃ seq : Nat, d < seq ∧ seq ≤ max ∧
      2 ≤ (rows.filter fun r => decide (seqOf r ≤ seq)).length ∧
      (∃ r ∈ rows.filter fun r => decide (seqOf r ≤ seq), seqOf r = seq) ∧
      a ∈ (rows.filter fun r => decide (seqOf r ≤ seq)).map member ∧
      b ∈ (rows.filter fun r => decide (seqOf r ≤ seq)).map member) ↔
    2 ≤ rows.length ∧ (∃ r ∈ rows, d < seqOf r) ∧ a ∈ rows.map member ∧ b ∈ rows.map member := by
  constructor
  · rintro ⟨seq, hd, -, htwo, ⟨r, hr, heq⟩, ha, hb⟩
    refine ⟨Nat.le_trans htwo (List.length_filter_le _ _), ⟨r, List.mem_of_mem_filter hr, by omega⟩,
      ?_, ?_⟩
    · exact (List.filter_sublist.map member).subset ha
    · exact (List.filter_sublist.map member).subset hb
  · rintro ⟨htwo, ⟨r, hr, hnew⟩, ha, hb⟩
    -- The latest of the rows.
    obtain ⟨n, hn⟩ : ∃ n, (rows.map seqOf).max? = some n := by
      refine Option.isSome_iff_exists.1 ?_
      rw [List.isSome_max?_iff]
      exact List.ne_nil_of_mem (List.mem_map_of_mem hr)
    obtain ⟨hmem, hall⟩ := List.max?_eq_some_iff.1 hn
    obtain ⟨z, hz, rfl⟩ := List.mem_map.1 hmem
    have hle := hall _ (List.mem_map_of_mem hr)
    have hz' := hmax z hz (by omega)
    obtain ⟨seq, hseq⟩ := Int.eq_ofNat_of_zero_le (show 0 ≤ seqOf z by omega)
    have hkeep : (rows.filter fun r => decide (seqOf r ≤ seq)) = rows := by
      refine List.filter_eq_self.2 fun r' hr' => decide_eq_true ?_
      have hle' := hall _ (List.mem_map_of_mem hr')
      omega
    refine ⟨seq, by omega, by omega, ?_⟩
    rw [hkeep]
    exact ⟨htwo, ⟨z, hz, hseq⟩, ha, hb⟩

/-- The files that share a digest and a size, of whatever batch. -/
def filesWith (t : Tables) (digest : DigestBytes) (size : Nat) : List FileRow :=
  t.files.filter fun f => decide (f.digest = some digest ∧ f.size = size ∧ f.isDedupable = true)

/-- The extents that share a digest and a length, of whatever batch. -/
def extentsWith (t : Tables) (digest : DigestBytes) (len : Nat) : List ExtentRow :=
  t.extents.filter fun e => decide (e.digest = digest ∧ e.len = len)

/-- The number of the file that an extent belongs to. -/
def ExtentRow.seqIn (t : Tables) (e : ExtentRow) : Int :=
  ((t.files.find? fun f => decide (f.id = e.fileid)).map FileRow.dedupeSeq).getD 0

theorem sharedFiles_eq (t : Tables) (seq : Nat) (digest : DigestBytes) (size : Nat) :
    sharedFiles t seq digest size =
      (filesWith t digest size).filter fun f => decide (f.dedupeSeq ≤ (seq : Int)) := by
  rw [filesWith, List.filter_filter]
  refine List.filter_congr fun f _ => ?_
  rw [← Bool.decide_and]
  refine decide_eq_decide.2 ?_
  tauto

section Extents

variable {t : Tables}

/-- An extent of a hashfile belongs to one file. -/
theorem seqIn_eq (hc : t.Constraints) {e : ExtentRow} {f : FileRow} (hf : f ∈ t.files)
    (hid : f.id = e.fileid) : e.seqIn t = f.dedupeSeq := by
  rcases filter_id_eq hc.id_unique e.fileid (fun _ => true) with ⟨g, hg, hgid, -, heq⟩ | ⟨hno, -⟩
  · simp only [Bool.and_true] at heq
    have hfind : (t.files.find? fun f => decide (f.id = e.fileid)) = some g := by
      rw [← List.head?_filter, heq]
      rfl
    have hfg : f = g := by
      have hmem : f ∈ t.files.filter fun f => decide (f.id = e.fileid) :=
        List.mem_filter.2 ⟨hf, decide_eq_true hid⟩
      rw [heq] at hmem
      exact List.mem_singleton.1 hmem
    rw [ExtentRow.seqIn, hfind, hfg]
    rfl
  · exact absurd (hno f hf hid) (by simp)

theorem exists_file_iff (hc : t.Constraints) {e : ExtentRow} (he : e ∈ t.extents)
    (p : Int → Prop) : (∃ f ∈ t.files, f.id = e.fileid ∧ p f.dedupeSeq) ↔ p (e.seqIn t) := by
  constructor
  · rintro ⟨f, hf, hid, hp⟩
    rwa [seqIn_eq hc hf hid]
  · intro hp
    obtain ⟨f, hf, hid⟩ := hc.extent_fileid e he
    exact ⟨f, hf, hid, by rwa [← seqIn_eq hc hf hid]⟩

theorem sharedExtents_eq (hc : t.Constraints) (seq : Nat) (digest : DigestBytes) (len : Nat) :
    sharedExtents t seq digest len =
      (extentsWith t digest len).filter fun e => decide (e.seqIn t ≤ (seq : Int)) := by
  rw [extentsWith, List.filter_filter]
  refine List.filter_congr fun e he => ?_
  rw [← Bool.decide_and]
  refine decide_eq_decide.2 ?_
  rw [exists_file_iff hc he fun n => n ≤ seq]
  tauto

end Extents

-- ---------------------------------------------------------------------------
-- What the rounds find
-- ---------------------------------------------------------------------------

section Together

variable {options : Options} {d : Nat} {digest : DigestBytes} {len : Nat} {a b : Member}

theorem together_iff {res : ResultsTree} {shared : List Member} {hasCurrent : Prop}
    (h : IsExactGroup (res.findDupeExtents digest len) digest len shared hasCurrent) :
    res.Together digest len a b ↔
      2 ≤ shared.length ∧ hasCurrent ∧ a ∈ shared ∧ b ∈ shared := by
  constructor
  · rintro ⟨g, hg, ha, hb⟩
    obtain ⟨htwo, hcur⟩ := h.loaded_iff.1 (by rw [hg]; rfl)
    have hperm := h.members_perm g hg
    exact ⟨htwo, hcur, hperm.mem_iff.1 ha, hperm.mem_iff.1 hb⟩
  · rintro ⟨htwo, hcur, ha, hb⟩
    obtain ⟨g, hg⟩ := Option.isSome_iff_exists.1 (h.loaded_iff.2 ⟨htwo, hcur⟩)
    have hperm := h.members_perm g hg
    exact ⟨g, hg, hperm.mem_iff.2 ha, hperm.mem_iff.2 hb⟩

/-- Both results of a round are exact, and without extents the second one is
    empty. -/
theorem processDuplicates_exact (options : Options) (db : Hashfile) (seq : Nat) {fileRows : List FileRow}
    (hfiles : fileRows.Perm (getDuplicateFiles db.toTables seq))
    {extentRows : List (ExtentRow × FileRow)}
    (hextents : extentRows.Perm (getDuplicateExtents db.toTables seq)) :
    ∃ res, processDuplicates options db.toTables fileRows extentRows = some res ∧
      (∀ digest size, IsExactGroup (res.1.findDupeExtents digest size) digest size
        ((sharedFiles db.toTables seq digest size).map FileRow.member)
        (∃ f ∈ sharedFiles db.toTables seq digest size, f.dedupeSeq = seq)) ∧
      (options.onlyWholeFiles = true → res.2 = .empty) ∧
      (options.onlyWholeFiles = false → ∀ digest len,
        IsExactGroup (res.2.findDupeExtents digest len) digest len
          ((sharedExtents db.toTables seq digest len).map ExtentRow.member)
          (∃ e ∈ sharedExtents db.toTables seq digest len, e.isCurrent db.toTables seq)) := by
  obtain ⟨s, hload, -, hexact⟩ := dbfileLoadSameFiles_exact db seq .empty hfiles
  obtain ⟨s', hload', -, hexact'⟩ := dbfileLoadExtentHashes_exact db seq s.reg hextents
  unfold processDuplicates
  rw [hload]
  cases hwhole : options.onlyWholeFiles with
  | true => exact ⟨(s.res, .empty), rfl, hexact, fun _ => rfl, fun h => by cases h⟩
  | false =>
    refine ⟨(s.res, s'.res), ?_, hexact, (fun h => by cases h), fun _ => hexact'⟩
    simp only [Option.bind_some, Bool.false_eq_true, if_false, hload', Option.map_some]

/-- What a round finds for every order of the rows is found in some round. -/
theorem someRound_iff (db : Hashfile) {P : ResultsTree × ResultsTree → Prop} {Q : Nat → Prop}
    (hround : ∀ seq fileRows extentRows res, fileRows.Perm (getDuplicateFiles db.toTables seq) →
      extentRows.Perm (getDuplicateExtents db.toTables seq) →
      processDuplicates options db.toTables fileRows extentRows = some res → (P res ↔ Q seq)) :
    SomeRound options d db.toTables P ↔
      ∃ seq : Nat, d < seq ∧ seq ≤ getMaxDedupeSeq db.toTables ∧ Q seq := by
  constructor
  · rintro ⟨seq, hseq, fileRows, extentRows, res, hfiles, hextents, hres, hP⟩
    obtain ⟨hlo, hhi⟩ := mem_processedSeqs.1 hseq
    exact ⟨seq, hlo, hhi, (hround seq _ _ _ hfiles hextents hres).1 hP⟩
  · rintro ⟨seq, hlo, hhi, hQ⟩
    obtain ⟨res, hres, -⟩ := processDuplicates_exact options db seq (List.Perm.refl _)
      (List.Perm.refl _)
    exact ⟨seq, mem_processedSeqs.2 ⟨hlo, hhi⟩, _, _, res, List.Perm.refl _, List.Perm.refl _, hres,
      (hround seq _ _ _ (List.Perm.refl _) (List.Perm.refl _) hres).2 hQ⟩

/-- The rounds reach every number behind the one of the hashfile. -/
def Tables.Reached (d : Nat) (t : Tables) : Prop :=
  ∀ f ∈ t.files, d < f.dedupeSeq → f.dedupeSeq ≤ getMaxDedupeSeq t

/-- A round brings two files together when its query finds them. -/
theorem filesTogether_iff_round (db : Hashfile) :
    FilesTogether options d db.toTables digest len a b ↔
      ∃ seq : Nat, d < seq ∧ seq ≤ getMaxDedupeSeq db.toTables ∧
        2 ≤ (sharedFiles db.toTables seq digest len).length ∧
        (∃ f ∈ sharedFiles db.toTables seq digest len, f.dedupeSeq = seq) ∧
        a ∈ (sharedFiles db.toTables seq digest len).map FileRow.member ∧
        b ∈ (sharedFiles db.toTables seq digest len).map FileRow.member := by
  refine someRound_iff db fun seq fileRows extentRows res hfiles hextents hres => ?_
  obtain ⟨res', hres', hexact, -⟩ :=
    processDuplicates_exact options db seq hfiles hextents
  rw [hres] at hres'
  cases hres'
  rw [together_iff (hexact digest len), List.length_map]

/-- Two files come together when they share their content and some file with
    that content is new. -/
theorem filesTogether_iff (db : Hashfile) (hmax : db.toTables.Reached d) :
    FilesTogether options d db.toTables digest len a b ↔
      2 ≤ (filesWith db.toTables digest len).length ∧
      (∃ f ∈ filesWith db.toTables digest len, d < f.dedupeSeq) ∧
      a ∈ (filesWith db.toTables digest len).map FileRow.member ∧
      b ∈ (filesWith db.toTables digest len).map FileRow.member := by
  have hreached : ∀ f ∈ filesWith db.toTables digest len, d < f.dedupeSeq →
      f.dedupeSeq ≤ getMaxDedupeSeq db.toTables := fun f hf => hmax f (List.mem_of_mem_filter hf)
  rw [← exists_round_iff hreached, filesTogether_iff_round]
  simp only [sharedFiles_eq]

/-- Nothing comes together without a number behind the one of the hashfile. -/
theorem exists_new_of_filesTogether (db : Hashfile)
    (h : FilesTogether options d db.toTables digest len a b) :
    ∃ f ∈ db.files, d < f.dedupeSeq := by
  obtain ⟨seq, hlt, -, -, ⟨f, hf, heq⟩, -⟩ := (filesTogether_iff_round db).1 h
  exact ⟨f, List.mem_of_mem_filter hf, by omega⟩

/-- Two extents come together when they share their content and some extent with
    that content is in a new file. -/
theorem extentsTogether_iff (db : Hashfile) (hmax : db.toTables.Reached d) :
    ExtentsTogether options d db.toTables digest len a b ↔
      options.onlyWholeFiles = false ∧ 2 ≤ (extentsWith db.toTables digest len).length ∧
      (∃ e ∈ extentsWith db.toTables digest len, d < e.seqIn db.toTables) ∧
      a ∈ (extentsWith db.toTables digest len).map ExtentRow.member ∧
      b ∈ (extentsWith db.toTables digest len).map ExtentRow.member := by
  have hreached : ∀ e ∈ extentsWith db.toTables digest len, d < e.seqIn db.toTables →
      e.seqIn db.toTables ≤ getMaxDedupeSeq db.toTables := by
    intro e he
    obtain ⟨f, hf, hid⟩ := db.constraints.extent_fileid e (List.mem_of_mem_filter he)
    rw [seqIn_eq db.constraints hf hid]
    exact hmax f hf
  rw [← exists_round_iff hreached]
  cases hwhole : options.onlyWholeFiles with
  | true =>
    refine iff_of_false ?_ fun h => by cases h.1
    rintro ⟨seq, -, fileRows, extentRows, res, hfiles, hextents, hres, g, hg, -⟩
    obtain ⟨res', hres', -, hnone, -⟩ :=
      processDuplicates_exact options db seq hfiles hextents
    rw [hres] at hres'
    cases hres'
    rw [hnone hwhole] at hg
    simp [ResultsTree.empty, ResultsTree.findDupeExtents] at hg
  | false =>
    rw [eq_self, true_and]
    refine someRound_iff db fun seq fileRows extentRows res hfiles hextents hres => ?_
    obtain ⟨res', hres', -, -, hexact⟩ :=
      processDuplicates_exact options db seq hfiles hextents
    rw [hres] at hres'
    cases hres'
    have hcurrent : (∃ e ∈ sharedExtents db.toTables seq digest len,
        e.isCurrent db.toTables seq) ↔
        ∃ e ∈ sharedExtents db.toTables seq digest len, e.seqIn db.toTables = seq := by
      refine exists_congr fun e => and_congr_right fun he => ?_
      exact exists_file_iff db.constraints (List.mem_of_mem_filter he) fun n => n = seq
    rw [together_iff (hexact hwhole digest len), List.length_map, hcurrent,
      sharedExtents_eq db.constraints]

end Together

-- ---------------------------------------------------------------------------
-- Renumbered hashfiles
-- ---------------------------------------------------------------------------

section Renumber

variable {g : Int → Int} {t : Tables} {digest : DigestBytes} {len : Nat}

theorem filesWith_renumber :
    filesWith (t.renumber g) digest len = (filesWith t digest len).map (FileRow.renumber g) := by
  rw [filesWith, filesWith, Tables.renumber, List.filter_map]
  rfl

theorem map_member_renumber (files : List FileRow) :
    (files.map (FileRow.renumber g)).map FileRow.member = files.map FileRow.member := by
  rw [List.map_map]
  rfl

theorem seqIn_renumber (hc : t.Constraints) {e : ExtentRow} (he : e ∈ t.extents) :
    e.seqIn (t.renumber g) = g (e.seqIn t) := by
  obtain ⟨f, hf, hid⟩ := hc.extent_fileid e he
  have hmem : FileRow.renumber g f ∈ (t.renumber g).files := List.mem_map_of_mem hf
  rw [seqIn_eq hc hf hid, seqIn_eq hc.renumber hmem hid]
  rfl

/-- Clamping does not change which numbers are new. -/
theorem lt_clampSeq_iff {d : Nat} {n : Int} : d < clampSeq d n ↔ d < n := by
  unfold clampSeq
  omega

/-- Small numbers are all reached. -/
theorem Tables.SeqsSmall.reached (h : t.SeqsSmall) (d : Nat) : t.Reached d :=
  fun f hf hnew => le_getMaxDedupeSeq h hf (by omega)

theorem Tables.SeqsSmall.clamp {d : Nat} (hd : d + 1 < 2 ^ 31) :
    (t.renumber (clampSeq d)).SeqsSmall := by
  intro f hf
  obtain ⟨f', -, rfl⟩ := List.mem_map.1 hf
  show clampSeq d f'.dedupeSeq < _
  unfold clampSeq
  omega

variable {options : Options} {d : Nat} {a b : Member}

theorem filesTogether_clamp (hc : t.Constraints) (hsmall : t.SeqsSmall) (hd : d + 1 < 2 ^ 31) :
    FilesTogether options d t digest len a b ↔
      FilesTogether options d (t.renumber (clampSeq d)) digest len a b := by
  rw [filesTogether_iff ⟨t, hc⟩ (hsmall.reached d),
    filesTogether_iff ⟨t.renumber (clampSeq d), hc.renumber⟩ ((Tables.SeqsSmall.clamp hd).reached d)]
  have hnew : (∃ f ∈ (filesWith t digest len).map (FileRow.renumber (clampSeq d)),
      d < f.dedupeSeq) ↔ ∃ f ∈ filesWith t digest len, d < f.dedupeSeq := by
    constructor
    · rintro ⟨f', hf', hlt⟩
      obtain ⟨f, hf, rfl⟩ := List.mem_map.1 hf'
      exact ⟨f, hf, lt_clampSeq_iff.1 hlt⟩
    · rintro ⟨f, hf, hlt⟩
      exact ⟨_, List.mem_map_of_mem hf, lt_clampSeq_iff.2 hlt⟩
  simp only [filesWith_renumber, map_member_renumber, List.length_map, hnew]

theorem extentsTogether_clamp (hc : t.Constraints) (hsmall : t.SeqsSmall) (hd : d + 1 < 2 ^ 31) :
    ExtentsTogether options d t digest len a b ↔
      ExtentsTogether options d (t.renumber (clampSeq d)) digest len a b := by
  rw [extentsTogether_iff ⟨t, hc⟩ (hsmall.reached d),
    extentsTogether_iff ⟨t.renumber (clampSeq d), hc.renumber⟩
      ((Tables.SeqsSmall.clamp hd).reached d)]
  have hwith : extentsWith (t.renumber (clampSeq d)) digest len = extentsWith t digest len := rfl
  have hnew : (∃ e ∈ extentsWith t digest len, d < e.seqIn (t.renumber (clampSeq d))) ↔
      ∃ e ∈ extentsWith t digest len, d < e.seqIn t := by
    refine exists_congr fun e => and_congr_right fun he => ?_
    rw [seqIn_renumber hc (List.mem_of_mem_filter he), lt_clampSeq_iff]
  rw [hwith, hnew]

end Renumber

-- ---------------------------------------------------------------------------
-- Batches lose no duplicates
-- ---------------------------------------------------------------------------

/-- What the size of a batch must not change. The numbers of a scan go up from the
    one of the hashfile, no batch is too large, and the rounds bring the same pairs
    together as without batches. -/
structure BatchesLoseNothing (cfg : ScanConfig) (options : Options) (t : Tables)
    (events : List ScanEvent) (s : ScanSys) : Prop where
  given_new : ∀ n ∈ s.given, cfg.dedupeSeq < n
  given_sorted : s.given.Pairwise (· ≤ ·)
  given_count : 0 < cfg.batchSize → ∀ n, s.given.count n ≤ cfg.batchSize
  same_pairs : ∃ s₀, scanRun cfg.unbatched (.started t) events = some s₀ ∧
    ∀ digest len a b,
      (FilesTogether options cfg.dedupeSeq s.tables digest len a b ↔
        FilesTogether options cfg.dedupeSeq s₀.tables digest len a b) ∧
      (ExtentsTogether options cfg.dedupeSeq s.tables digest len a b ↔
        ExtentsTogether options cfg.dedupeSeq s₀.tables digest len a b)

section Lossless

variable {cfg : ScanConfig} {options : Options} {events : List ScanEvent} {s : ScanSys}

theorem batchesLoseNothing_of_given_nil {t : Tables} (hscan : ∀ e ∈ events, e.isScan = true)
    (hrun : scanRun cfg (.started t) events = some s) (hnone : s.given = []) :
    BatchesLoseNothing cfg options t events s := by
  obtain ⟨hs, s₀, hrun₀, hs₀⟩ := (untouched_started t).run cfg.unbatched
    (untouched_started t) hscan hrun hnone
  have htables : s₀.tables = s.tables := by
    rw [ScanSys.tables, ScanSys.tables, hs.conn, hs₀.conn]
  refine ⟨by simp [hnone], by simp [hnone], by simp [hnone], s₀, hrun₀, fun _ _ _ _ => ?_⟩
  rw [htables]
  exact ⟨Iff.rfl, Iff.rfl⟩

/-- Batches lose no duplicates, whatever their size and in whatever order files
    are listed and hashed, as long as the numbers fit into an `int`. -/
theorem scanRun_batchesLoseNothing (db : Hashfile) (hdb : ∀ f ∈ db.files, f.dedupeSeq ≤ cfg.dedupeSeq)
    (hscan : ∀ e ∈ events, e.isScan = true)
    (hrun : scanRun cfg (.started db.toTables.deleteUnscannedFiles) events = some s)
    (hfit : s.given = [] ∨ numberOf cfg s.given.length < 2 ^ 31) :
    BatchesLoseNothing cfg options db.toTables.deleteUnscannedFiles events s := by
  rcases hfit with hnone | hlt
  · exact batchesLoseNothing_of_given_nil hscan hrun hnone
  have hold : ∀ f ∈ db.toTables.deleteUnscannedFiles.files, f.dedupeSeq ≤ cfg.dedupeSeq :=
    fun f hf => hdb f (Tables.mem_deleteFiles_files.1 hf).1
  have hd := lt_numberOf cfg s.given.length
  have hstart := numbered_started cfg db.toTables.deleteUnscannedFiles
  have hnum := hstart.run hscan hrun hlt
  have hsmall : s.conn.All Tables.SeqsSmall := by
    refine hstart.small_run hscan ⟨fun f hf => ?_, fun _ ht => by cases ht⟩ hrun hlt
    have hle := hold f hf
    omega
  have hc := ((ScanSys.inv_started db.constraints).scanRun hrun).tables_sound.1
  have hrun₀ := scanRun_unbatched hstart hscan hrun hlt
  rw [unbatched_started hold] at hrun₀
  refine ⟨hnum.lt_of_mem, hnum.pairwise, hnum.count_le, _, hrun₀, fun digest len a b => ⟨?_, ?_⟩⟩
  · exact filesTogether_clamp hc hsmall.durable (by omega)
  · exact extentsTogether_clamp hc hsmall.durable (by omega)

end Lossless

/-- Another name for the content of `newFile`. -/
def newCopy : ListedFile := { newFile with path := "/b", ino := 11 }

/-- A scan of two copies of a file, without failures. -/
def copiesEvents : List ScanEvent :=
  [.describe newFile true, .store (fun _ => .done) true, .describe newCopy true,
    .store (fun _ => .done) true, .worker 0 (some ⟨zeroDigest, [], [], 0⟩) fun _ => .done,
    .worker 0 (some ⟨zeroDigest, [], [], 0⟩) fun _ => .done]

/-- The copies with their numbers. -/
def copiesHashfile (seq seq' : Int) : Hashfile where
  files := [⟨1, "/a", 10, 0, 4096, 5, seq, some zeroDigest, some 0⟩,
    ⟨2, "/b", 11, 0, 4096, 5, seq', some zeroDigest, some 0⟩]
  extents := []
  blocks := []
  constraints := by
    constructor <;> simp

/-- The end of a scan of the copies. -/
def copiesScanned (batch : Batch) (seq seq' : Nat) : ScanSys :=
  ⟨⟨(copiesHashfile (toInt seq) (toInt seq')).toTables, none, 10⟩, true, batch, .idle, [],
    [(11, 0), (10, 0)], [seq, seq']⟩

/-- A new hashfile and batches of one file. -/
def singleConfig : ScanConfig := { defaultConfig with batchSize := 1, batchSize_lt := by decide }

theorem scanRun_batchesLoseNothing_copies :
    scanRun singleConfig (.started emptyHashfile.toTables.deleteUnscannedFiles) copiesEvents =
      some (copiesScanned ⟨3, 0⟩ 2 3) ∧
    BatchesLoseNothing singleConfig {} emptyHashfile.toTables.deleteUnscannedFiles copiesEvents
      (copiesScanned ⟨3, 0⟩ 2 3) := by
  have hrun : scanRun singleConfig (.started emptyHashfile.toTables.deleteUnscannedFiles)
      copiesEvents = some (copiesScanned ⟨3, 0⟩ 2 3) := by
    rfl
  refine ⟨hrun, scanRun_batchesLoseNothing emptyHashfile (fun f hf => by cases hf) ?_ hrun ?_⟩
  · decide
  · right
    decide

/-- The largest number of a hashfile that leaves only one number that fits. -/
def lastConfig : ScanConfig :=
  { singleConfig with dedupeSeq := 2147483646, dedupeSeq_lt := by decide }

/-- The numbers `2 ^ 31` and `2 ^ 31 + 1` are stored as negative ones, and no round
    finds them. -/
theorem scanRun_batches_loseCopies :
    scanRun lastConfig (.started emptyHashfile.toTables.deleteUnscannedFiles) copiesEvents =
      some (copiesScanned ⟨2147483649, 0⟩ 2147483648 2147483649) ∧
    ¬ BatchesLoseNothing lastConfig {} emptyHashfile.toTables.deleteUnscannedFiles copiesEvents
      (copiesScanned ⟨2147483649, 0⟩ 2147483648 2147483649) := by
  refine ⟨rfl, fun hno => ?_⟩
  obtain ⟨s₀, hrun₀, hsame⟩ := hno.same_pairs
  have hs₀ : s₀ = copiesScanned ⟨2147483647, 0⟩ 2147483647 2147483647 := by
    symm
    exact Option.some.inj hrun₀
  have hseq : ∀ {n n' : Int} {f : FileRow}, f ∈ (copiesHashfile n n').files →
      f.dedupeSeq = n ∨ f.dedupeSeq = n' := by
    intro n n' f hf
    simp only [copiesHashfile, List.mem_cons, List.not_mem_nil, or_false] at hf
    rcases hf with rfl | rfl
    · exact .inl rfl
    · exact .inr rfl
  -- Without batches the two copies come together.
  have htogether : FilesTogether {} 2147483646 (copiesHashfile 2147483647 2147483647).toTables
      zeroDigest 4096 ⟨1, 0, 0⟩ ⟨2, 0, 0⟩ := by
    have hsmall : (copiesHashfile 2147483647 2147483647).toTables.SeqsSmall := by
      intro f hf
      have hn := hseq hf
      omega
    refine (filesTogether_iff _ (hsmall.reached _)).2 ?_
    decide +kernel
  rw [hs₀] at hsame
  have hlost := (hsame zeroDigest 4096 ⟨1, 0, 0⟩ ⟨2, 0, 0⟩).1.2 htogether
  have hnew : ∃ f ∈ (copiesHashfile (-2147483648) (-2147483647)).files,
      ((2147483646 : Nat) : Int) < f.dedupeSeq := exists_new_of_filesTogether _ hlost
  obtain ⟨f, hf, hlt⟩ := hnew
  have hn := hseq hf
  omega

end Duperemove
