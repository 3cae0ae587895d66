-- SUMMARY: What holes do to a scan: a file that ends in one is given up on, and bytes of a hole enter a digest.
import Duperemove.FileScan.FastForward
import Duperemove.FileScan.Stretches

/-!
# Holes

In a hole `get_extent` gives the extent behind the hole, and the bytes of the
hole are hashed with that extent. Behind the last extent there is none, and
`process_extents` reports an error, after which `csum_whole_file` takes the file
for changed. So whether the hashes of an unchanged file are stored depends on
where its last extent ends, and on nothing else. Where they are stored, an extent
behind a hole has the digest of the hole and the extent.
-/

namespace Duperemove

variable {Digest : Type} {job : ScanJob} {c : List Byte}

theorem missesExtent_iff (hwhole : job.options.onlyWholeFiles = false) :
    MissesExtent job ↔ ∀ e ∈ job.fiemap.fmExtents, e.feEnd < job.filesize := by
  have hpos := job.filesize_pos
  rw [MissesExtent, Fiemap.getExtent_eq_none_iff]
  constructor
  · rintro ⟨-, hbehind⟩ e he
    have := hbehind e he
    omega
  · intro hbefore
    refine ⟨hwhole, fun e he => ?_⟩
    have := hbefore e he
    omega

/-- The scan of an unchanged file, whatever the kernel's counts are. -/
theorem csumWholeFile_commits_iff (h : Xxh Digest) (buffer : ThreadBuffer)
    (hlen : c.length = job.filesize) (hreads : ReadsFile job c) :
    (csumWholeFile job h buffer).isSome ↔ ¬ MissesExtent job := by
  obtain ⟨⟨exit, s⟩, hrun, hpost⟩ :=
    scanLoop_spec (h := h) hlen hreads (fillsWith_fillBuffer job) buffer
  rw [csumWholeFile, csumWholeFileWith, hrun, Option.bind_some]
  exact hpost.commits_iff

/-- The hashes of an unchanged file are stored exactly when one of its extents reaches
    the end of the file. -/
theorem csumWholeFile_isSome_iff (h : Xxh Digest) (buffer : ThreadBuffer)
    (hwhole : job.options.onlyWholeFiles = false) (hlen : c.length = job.filesize)
    (hreads : ReadsFile job c) :
    (csumWholeFile job h buffer).isSome ↔
      ∃ e ∈ job.fiemap.fmExtents, job.filesize ≤ e.feEnd := by
  rw [csumWholeFile_commits_iff h buffer hlen hreads, missesExtent_iff hwhole]
  constructor
  · intro hnot
    by_contra hnone
    refine hnot fun e he => ?_
    by_contra hend
    exact hnone ⟨e, he, Nat.le_of_not_lt hend⟩
  · rintro ⟨e, he, hend⟩ hall
    have := hall e he
    omega

theorem csumWholeFile_isSome_sampleJob :
    (csumWholeFile sampleJob Xxh.message .fresh).isSome := by
  refine (@csumWholeFile_isSome_iff _ sampleJob (List.replicate 5000 7) Xxh.message .fresh rfl rfl
    (readsFile_ofContent (by decide))).2 ⟨_, List.mem_singleton.2 rfl, ?_⟩
  rw [sampleJob_filesize]
  decide

/-- A map whose only extent is the last one and ends in front of the file's end. -/
def truncatedFiemap : Fiemap where
  fmExtents := [⟨0, 65536, 4096, fiemapExtentLast⟩]
  positive := by decide
  fits := by decide
  sorted := by decide

/-- A file of one written block that `truncate` made larger. -/
def truncatedContent : List Byte := List.replicate 4096 1 ++ List.replicate 4096 0

theorem truncatedContent_length : truncatedContent.length = 8192 := by
  rw [truncatedContent, List.length_append, List.length_replicate, List.length_replicate]

def truncatedJob : ScanJob :=
  .ofContent {} 4096 truncatedFiemap truncatedContent 4096
    minBlocksize_le_page page_le_maxBlocksize (by rw [truncatedContent_length]; decide)
    (by rw [truncatedContent_length]; decide)

/-- The file did not change and every read succeeds, and its hashes are not stored. -/
theorem csumWholeFile_isNone_truncatedJob :
    truncatedJob.options.onlyWholeFiles = false ∧
      truncatedContent.length = truncatedJob.filesize ∧ ReadsFile truncatedJob truncatedContent ∧
      truncatedJob.fiemap.Describes truncatedContent ∧
      (∀ e, truncatedJob.fiemap.fmExtents.getLast? = some e → e.isLast = true) ∧
      csumWholeFile truncatedJob Xxh.message .fresh = none := by
  have hreads : ReadsFile truncatedJob truncatedContent := readsFile_ofContent (by decide)
  have hmiss : MissesExtent truncatedJob := by
    refine (missesExtent_iff rfl).2 fun e he => ?_
    rw [List.mem_singleton.1 he]
    show 4096 < truncatedContent.length
    rw [truncatedContent_length]
    decide
  refine ⟨rfl, rfl, hreads, ⟨?_, ?_⟩, ?_, ?_⟩
  · intro off hoff hhole
    rw [truncatedContent_length] at hoff
    have hfirst := hhole _ List.mem_cons_self
    simp only [FiemapExtent.feEnd] at hfirst
    rw [truncatedContent, List.getElem?_append_right (by rw [List.length_replicate]; omega),
      List.length_replicate]
    exact List.getElem?_replicate_of_lt (by omega)
  · intro e he hflag
    rw [List.mem_singleton.1 he] at hflag
    exact absurd hflag (by decide)
  · intro e he
    rw [List.mem_singleton.1 (List.mem_of_getLast? he)]
    decide
  · rw [← Option.not_isSome_iff_eq_none, csumWholeFile_commits_iff Xxh.message .fresh rfl hreads]
    exact fun hnot => hnot hmiss

-- ---------------------------------------------------------------------------
-- Digests behind holes
-- ---------------------------------------------------------------------------

/-- Two messages that the hash cannot tell apart. -/
def Xxh.Collides (h : Xxh Digest) (a b : List Byte) : Prop := a ≠ b ∧ h.xxh128 a = h.xxh128 b

/-- The bytes of an extent that lie inside the file. -/
def ownBytes (job : ScanJob) (c : List Byte) (loff len : Nat) : List Byte :=
  c.extract loff (min (loff + len) job.filesize)

/-- Every row has the digest of the bytes of its own extent. -/
def DigestsOwnBytes (job : ScanJob) (h : Xxh Digest) (c : List Byte)
    (rows : List (ExtentCsum Digest)) : Prop :=
  ∀ row ∈ rows, row.digest = some (h.xxh128 (ownBytes job c row.loff row.len))

/-- A stretch that begins in a hole inside the file takes more than its extent's own
    bytes. -/
theorem Stretch.bytes_eq_ownBytes_iff (hlen : c.length = job.filesize) {p : Stretch}
    (hpos : 0 < p.extent.feLength) (hin : p.start < job.filesize)
    (hle : p.start ≤ p.extent.feLogical) :
    p.bytes job c = ownBytes job c p.extent.feLogical p.extent.feLength ↔
      p.start = p.extent.feLogical := by
  constructor
  · intro heq
    have hlength := congrArg List.length heq
    rw [p.length_bytes hlen, ownBytes, List.extract_eq_take_drop, List.length_take,
      List.length_drop, FiemapExtent.feEnd] at hlength
    omega
  · intro heq
    rw [Stretch.bytes, ownBytes, heq]
    rfl

/-- The row of a stretch has the digest of its extent's own bytes when the stretch
    begins at the extent, or else by a collision. -/
theorem digest_stretchRow_iff (h : Xxh Digest) (hlen : c.length = job.filesize) {p : Stretch}
    (hskip : p.extent.isSkipped = false) (hpos : 0 < p.extent.feLength)
    (hin : p.start < job.filesize) (hle : p.start ≤ p.extent.feLogical) :
    (stretchRow job h c p).digest =
        some (h.xxh128 (ownBytes job c (stretchRow job h c p).loff (stretchRow job h c p).len)) ↔
      (p.start < p.extent.feLogical →
        h.Collides (p.bytes job c) (ownBytes job c p.extent.feLogical p.extent.feLength)) := by
  have hsame := Stretch.bytes_eq_ownBytes_iff hlen hpos hin hle
  simp only [stretchRow, hskip, Bool.false_eq_true, if_false, Option.some.injEq]
  constructor
  · intro heq hhole
    exact ⟨fun hbytes => Nat.ne_of_lt hhole (hsame.1 hbytes), heq⟩
  · intro hcollides
    rcases Nat.lt_or_eq_of_le hle with hhole | hat
    · exact (hcollides hhole).2
    · rw [hsame.2 hat]

/-- The stored digests are those of the extents' own bytes exactly when there are none,
    or no stored extent has a hole in front of it inside the file; apart from that only
    a collision of the two messages can make a digest come out right. -/
theorem csumWholeFile_digestsOwnBytes_iff (h : Xxh Digest) (buffer : ThreadBuffer)
    (hlen : c.length = job.filesize) (hreads : ReadsFile job c)
    (hskip : ∀ e ∈ job.fiemap.fmExtents, e.isSkipped = false)
    (hlast : ∃ e, job.fiemap.fmExtents.getLast? = some e ∧ e.isLast = true ∧
      job.filesize ≤ e.feEnd)
    (hothers : ∀ e ∈ job.fiemap.fmExtents.dropLast, e.isLast = false) :
    ∃ commit, csumWholeFile job h buffer = some commit ∧
      (DigestsOwnBytes job h c commit.extents ↔
        job.options.onlyWholeFiles = true ∨
        ∀ p ∈ stretches 0 job.fiemap.fmExtents, p.IsStored job →
          p.start < p.extent.feLogical →
          h.Collides (p.bytes job c) (ownBytes job c p.extent.feLogical p.extent.feLength)) := by
  obtain ⟨commit, hrun, hrows⟩ :=
    csumWholeFile_stretches h buffer hlen hreads hlast hothers (.inr hskip)
  refine ⟨commit, hrun, ?_⟩
  rw [hrows]
  cases hwhole : job.options.onlyWholeFiles with
  | true => simp [DigestsOwnBytes]
  | false =>
    simp only [Bool.false_eq_true, if_false, false_or, DigestsOwnBytes, List.forall_mem_map,
      List.mem_filter, decide_eq_true_eq, and_imp]
    have hrow : ∀ p ∈ stretches 0 job.fiemap.fmExtents, p.IsStored job → _ :=
      fun p hp hstored =>
        have hmem := (mem_of_mem_stretches hp).1
        digest_stretchRow_iff h hlen (hskip _ hmem) (job.fiemap.positive _ hmem) hstored.1
          (start_le_feLogical job.fiemap.sorted (fun a _ => Nat.zero_le _) hp)
    exact forall₃_congr hrow

theorem csumWholeFile_digestsOwnBytes_sampleJob :
    ∃ commit, csumWholeFile sampleJob Xxh.message .fresh = some commit ∧
      DigestsOwnBytes sampleJob Xxh.message (List.replicate 5000 7) commit.extents := by
  obtain ⟨commit, hrun, hiff⟩ := @csumWholeFile_digestsOwnBytes_iff _ sampleJob
    (List.replicate 5000 7) Xxh.message .fresh rfl (readsFile_ofContent (by decide)) (by decide)
    ⟨_, rfl, rfl, by rw [sampleJob_filesize]; decide⟩ (by decide)
  refine ⟨commit, hrun, hiff.2 (.inr ?_)⟩
  rintro p hp - hhole
  rw [List.mem_singleton.1 hp] at hhole
  exact absurd hhole (by decide)

/-- Two extents with a hole between them. -/
def sparseFiemap : Fiemap where
  fmExtents := [⟨0, 65536, 4096, 0⟩, ⟨8192, 131072, 4096, fiemapExtentLast⟩]
  positive := by decide
  fits := by decide
  sorted := by decide

/-- The same block at the start and behind the hole. -/
def sparseContent : List Byte :=
  List.replicate 4096 1 ++ List.replicate 4096 0 ++ List.replicate 4096 1

theorem sparseContent_length : sparseContent.length = 12288 := by
  simp only [sparseContent, List.length_append, List.length_replicate]

def sparseJob : ScanJob :=
  .ofContent {} 4096 sparseFiemap sparseContent 4096
    minBlocksize_le_page page_le_maxBlocksize (by rw [sparseContent_length]; decide)
    (by rw [sparseContent_length]; decide)

theorem sparseJob_filesize : sparseJob.filesize = 12288 := sparseContent_length

/-- The two blocks have equal bytes and different digests. -/
theorem not_digestsOwnBytes_sparseJob :
    ReadsFile sparseJob sparseContent ∧
      (∀ e ∈ sparseJob.fiemap.fmExtents, e.isSkipped = false) ∧
      ∃ commit, csumWholeFile sparseJob Xxh.message .fresh = some commit ∧
        ¬ DigestsOwnBytes sparseJob Xxh.message sparseContent commit.extents ∧
        ∃ a ∈ commit.extents, ∃ b ∈ commit.extents, a.len = b.len ∧
          ownBytes sparseJob sparseContent a.loff a.len =
            ownBytes sparseJob sparseContent b.loff b.len ∧ a.digest ≠ b.digest := by
  have hreads : ReadsFile sparseJob sparseContent := readsFile_ofContent (by decide)
  have hskip : ∀ e ∈ sparseJob.fiemap.fmExtents, e.isSkipped = false := by decide
  obtain ⟨commit, hrun, hrows⟩ := @csumWholeFile_stretches _ sparseJob Xxh.message sparseContent
    .fresh rfl hreads ⟨_, rfl, rfl, by rw [sparseJob_filesize]; decide⟩ (by decide) (.inr hskip)
  have hmem : ∀ p ∈ stretches 0 sparseFiemap.fmExtents, p.IsStored sparseJob →
      stretchRow sparseJob Xxh.message sparseContent p ∈ commit.extents := by
    intro p hp hstored
    rw [hrows, if_neg (by decide)]
    exact List.mem_map_of_mem (List.mem_filter.2 ⟨hp, decide_eq_true hstored⟩)
  have hfront := hmem ⟨0, ⟨0, 65536, 4096, 0⟩⟩ (by decide)
    ⟨sparseJob.filesize_pos, .inr (by rw [sparseJob_filesize]; decide)⟩
  have hbehind := hmem ⟨4096, ⟨8192, 131072, 4096, fiemapExtentLast⟩⟩ (by decide)
    ⟨by rw [sparseJob_filesize]; decide, .inl (by decide)⟩
  have hown : ∀ loff, loff + 4096 ≤ 12288 →
      ownBytes sparseJob sparseContent loff 4096 = (sparseContent.drop loff).take 4096 := by
    intro loff hle
    rw [ownBytes, sparseJob_filesize, List.extract_eq_take_drop, Nat.min_eq_left hle,
      Nat.add_sub_cancel_left]
  have hequal : ownBytes sparseJob sparseContent 0 4096 =
      ownBytes sparseJob sparseContent 8192 4096 := by
    have hahead : (List.replicate 4096 (1 : Byte) ++ List.replicate 4096 0).length = 8192 := by
      rw [List.length_append, List.length_replicate, List.length_replicate]
    rw [hown 0 (by decide), hown 8192 (by decide), sparseContent, List.drop_left' hahead,
      List.drop_zero, List.append_assoc, List.take_left' List.length_replicate,
      List.take_of_length_le (Nat.le_of_eq List.length_replicate)]
  have hdiffer : (stretchRow sparseJob Xxh.message sparseContent
        ⟨0, ⟨0, 65536, 4096, 0⟩⟩).digest ≠
      (stretchRow sparseJob Xxh.message sparseContent
        ⟨4096, ⟨8192, 131072, 4096, fiemapExtentLast⟩⟩).digest := by
    intro heq
    -- The second digest is longer by the hole.
    have hlength := congrArg List.length (Option.some.inj heq)
    simp only [Xxh.message, id_eq] at hlength
    rw [Stretch.length_bytes rfl, Stretch.length_bytes rfl, sparseJob_filesize] at hlength
    exact absurd hlength (by decide)
  refine ⟨hreads, hskip, commit, hrun, fun hall => ?_, _, hfront, _, hbehind, rfl, hequal, hdiffer⟩
  refine hdiffer ((hall _ hfront).trans (Eq.trans ?_ (hall _ hbehind).symm))
  exact congrArg (fun bytes => some (Xxh.message.xxh128 bytes)) hequal

end Duperemove
