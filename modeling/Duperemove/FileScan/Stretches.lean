-- SUMMARY: What each extent takes from the file: the bytes from the end of the extent in front of it on.
import Duperemove.FileScan.Exact

/-!
# Stretches

`get_extent` gives an extent for every offset from the end of the extent in front of
it, so the bytes of a hole go to the extent behind the hole. A `Stretch` is an extent
with the offset where its bytes begin. On a sorted map whose last extent is flagged
and reaches the end of the file, the scan stores a row for every stretch that begins
inside the file and whose extent ends inside it or has the flag.
-/

namespace Duperemove

variable {Digest : Type}

/-- An extent with the first offset whose byte goes to it. -/
structure Stretch where
  start : Nat
  extent : FiemapExtent
  deriving DecidableEq, Repr

/-- The stretches of the extents behind the offset `off`. -/
def stretches : Nat → List FiemapExtent → List Stretch
  | _, [] => []
  | off, e :: extents => ⟨off, e⟩ :: stretches e.feEnd extents

/-- The consumer gets to the stretch and to the offset where its extent is stored. -/
def Stretch.IsStored (job : ScanJob) (p : Stretch) : Prop :=
  p.start < job.filesize ∧ (p.extent.isLast ∨ p.extent.feEnd ≤ job.filesize)

instance (job : ScanJob) (p : Stretch) : Decidable (p.IsStored job) :=
  inferInstanceAs (Decidable (_ ∧ _))

/-- The bytes of the content `c` that the extent of a stretch takes. -/
def Stretch.bytes (job : ScanJob) (c : List Byte) (p : Stretch) : List Byte :=
  c.extract p.start (min p.extent.feEnd job.filesize)

/-- The entry stored for a stretch of the content `c`. -/
def stretchRow (job : ScanJob) (h : Xxh Digest) (c : List Byte) (p : Stretch) :
    ExtentCsum Digest :=
  if p.extent.isSkipped then ⟨0, 0, 0, none⟩
  else
    ⟨p.extent.feLogical, p.extent.fePhysical, p.extent.feLength, some (h.xxh128 (p.bytes job c))⟩

-- ---------------------------------------------------------------------------
-- Lists of stretches
-- ---------------------------------------------------------------------------

theorem mem_of_mem_stretches {off : Nat} {extents : List FiemapExtent} {p : Stretch}
    (hp : p ∈ stretches off extents) :
    p.extent ∈ extents ∧ (p.start = off ∨ ∃ a ∈ extents, p.start = a.feEnd) := by
  induction extents generalizing off with
  | nil => cases hp
  | cons e extents ih =>
    rcases List.mem_cons.1 hp with rfl | htail
    · exact ⟨List.mem_cons_self, .inl rfl⟩
    · obtain ⟨hmem, hstart⟩ := ih htail
      refine ⟨List.mem_cons_of_mem _ hmem, .inr ?_⟩
      rcases hstart with hstart | ⟨a, ha, hstart⟩
      · exact ⟨e, List.mem_cons_self, hstart⟩
      · exact ⟨a, List.mem_cons_of_mem _ ha, hstart⟩

/-- Without holes every extent takes its own bytes only. -/
theorem stretches_gapless {e : FiemapExtent} {extents : List FiemapExtent}
    (hgapless : (e :: extents).IsChain fun a b => a.feEnd = b.feLogical) :
    stretches e.feLogical (e :: extents) =
      (e :: extents).map fun a => ⟨a.feLogical, a⟩ := by
  induction extents generalizing e with
  | nil => rfl
  | cons e' extents ih =>
    obtain ⟨hnext, hrest⟩ := List.isChain_cons_cons.1 hgapless
    rw [stretches, hnext, ih hrest]
    rfl

/-- A stretch begins at its extent or, behind a hole, in front of it. -/
theorem start_le_feLogical {off : Nat} {extents : List FiemapExtent} {p : Stretch}
    (hsorted : extents.Pairwise fun a b => a.feEnd ≤ b.feLogical)
    (hoff : ∀ a ∈ extents, off ≤ a.feLogical) (hp : p ∈ stretches off extents) :
    p.start ≤ p.extent.feLogical := by
  induction extents generalizing off with
  | nil => cases hp
  | cons e extents ih =>
    rcases List.mem_cons.1 hp with rfl | htail
    · exact hoff _ List.mem_cons_self
    · exact ih hsorted.of_cons (List.pairwise_cons.1 hsorted).1 htail

/-- Behind the end of the file no stretch is stored. -/
theorem filter_isStored_behind {job : ScanJob} {off : Nat} {extents : List FiemapExtent}
    (hoff : job.filesize ≤ off) (hends : ∀ a ∈ extents, job.filesize ≤ a.feEnd) :
    (stretches off extents).filter (fun p => p.IsStored job) = [] := by
  rw [List.filter_eq_nil_iff]
  intro p hp hstored
  have hin := (of_decide_eq_true hstored).1
  rcases (mem_of_mem_stretches hp).2 with hstart | ⟨a, ha, hstart⟩
  · omega
  · have := hends a ha
    omega

-- ---------------------------------------------------------------------------
-- Consuming stretches
-- ---------------------------------------------------------------------------

section Ahead

variable {job : ScanJob} {c : List Byte}

theorem Stretch.length_bytes (hlen : c.length = job.filesize) (p : Stretch) :
    (p.bytes job c).length = min p.extent.feEnd job.filesize - p.start := by
  rw [bytes, List.extract_eq_take_drop, List.length_take, List.length_drop]
  omega

/-- A stretch that goes on to the end of the file takes the rest of it. -/
theorem Stretch.bytes_eq_drop (hlen : c.length = job.filesize) {p : Stretch}
    (hend : job.filesize ≤ p.extent.feEnd) : p.bytes job c = c.drop p.start := by
  rw [bytes, List.extract_eq_take_drop, List.take_of_length_le]
  rw [List.length_drop]
  omega

/-- A stretch that ends inside the file is followed by the bytes behind its extent. -/
theorem Stretch.drop_start {p : Stretch}
    (hstart : p.start ≤ p.extent.feEnd) (hend : p.extent.feEnd ≤ job.filesize) :
    c.drop p.start = p.bytes job c ++ c.drop p.extent.feEnd := by
  have hdrop : c.drop p.extent.feEnd = (c.drop p.start).drop (p.extent.feEnd - p.start) := by
    rw [List.drop_drop]
    congr 1
    omega
  rw [bytes, List.extract_eq_take_drop, Nat.min_eq_left hend, hdrop, List.take_append_drop]

/-- The bytes of a stretch go to its extent in one piece. -/
theorem extentBytes_stretch (h : Xxh Digest) (hlen : c.length = job.filesize) {p : Stretch}
    (hget : job.fiemap.getExtent p.start = some p.extent) (hin : p.start < job.filesize)
    (acc : ExtentAcc Digest) :
    extentBytes job h p.start (p.bytes job c) acc =
      some (acc.piece job h p.extent p.start (p.bytes job c)) := by
  have hend := Fiemap.lt_feEnd_of_getExtent hget
  have hbytes := p.length_bytes hlen
  refine extentBytes_piece h ?_ hget (by omega) (by omega) acc
  intro hnil
  rw [hnil, List.length_nil] at hbytes
  omega

/-- A stretch that arrives at the offset where its extent is stored adds its row. -/
theorem piece_stretch (h : Xxh Digest) (hlen : c.length = job.filesize) {p : Stretch}
    (hin : p.start < job.filesize) (hend : p.start < p.extent.feEnd)
    (hclose : closesAt job p.extent (min p.extent.feEnd job.filesize))
    (rows : List (ExtentCsum Digest)) :
    (⟨none, rows⟩ : ExtentAcc Digest).piece job h p.extent p.start (p.bytes job c) =
      ⟨none, rows ++ [stretchRow job h c p]⟩ := by
  have hat : p.start + (p.bytes job c).length = min p.extent.feEnd job.filesize := by
    have := p.length_bytes hlen
    omega
  rw [ExtentAcc.piece, hat, if_pos hclose]
  by_cases hskip : p.extent.isSkipped <;>
    simp [ExtentAcc.add, ExtentAcc.close, stretchRow, hskip]

/-- An extent that goes on behind the end of the file and has no last flag is not
    stored. -/
theorem piece_open (h : Xxh Digest) (hlen : c.length = job.filesize) {p : Stretch}
    (hin : p.start < job.filesize) (hflag : p.extent.isLast = false)
    (hend : job.filesize < p.extent.feEnd) (acc : ExtentAcc Digest) :
    (acc.piece job h p.extent p.start (p.bytes job c)).extents = acc.extents := by
  have hopen : ¬ closesAt job p.extent (p.start + (p.bytes job c).length) := by
    have := p.length_bytes hlen
    rw [closesAt, hflag, if_neg Bool.false_ne_true]
    omega
  rw [ExtentAcc.piece, if_neg hopen, ExtentAcc.add]
  split <;> rfl

/-- Consuming a stretch inside the file stores its row, and goes on behind it. -/
theorem extentBytes_innerStretch (h : Xxh Digest) (hlen : c.length = job.filesize) {off : Nat}
    {e : FiemapExtent} (hget : job.fiemap.getExtent off = some e) (hin : off < job.filesize)
    (hflag : e.isLast = false) (hgoes : e.feEnd < job.filesize) (rows : List (ExtentCsum Digest)) :
    extentBytes job h off (c.drop off) ⟨none, rows⟩ =
      extentBytes job h e.feEnd (c.drop e.feEnd)
        ⟨none, rows ++ [stretchRow job h c ⟨off, e⟩]⟩ := by
  have hstart := Fiemap.lt_feEnd_of_getExtent hget
  have htake := extentBytes_stretch h hlen (p := ⟨off, e⟩) hget hin ⟨none, rows⟩
  have hclose : closesAt job e (min e.feEnd job.filesize) := by
    rw [closesAt, hflag, if_neg Bool.false_ne_true]
    omega
  have hbytes := Stretch.length_bytes hlen ⟨off, e⟩
  have hend : off + ((⟨off, e⟩ : Stretch).bytes job c).length = e.feEnd := by
    simp only at hbytes
    omega
  rw [Stretch.drop_start (p := ⟨off, e⟩) (Nat.le_of_lt hstart) (Nat.le_of_lt hgoes),
    extentBytes_append, htake, Option.bind_some, hend, piece_stretch h hlen hin hstart hclose]

/-- Consuming the rest of the file as one stretch stores its row or nothing. -/
theorem extentBytes_endStretch (h : Xxh Digest) (hlen : c.length = job.filesize) {off : Nat}
    {e : FiemapExtent} (hget : job.fiemap.getExtent off = some e) (hin : off < job.filesize)
    (hend : job.filesize ≤ e.feEnd) (rows : List (ExtentCsum Digest)) :
    ∃ pending, extentBytes job h off (c.drop off) ⟨none, rows⟩ =
      some ⟨pending, rows ++
        ([⟨off, e⟩].filter fun p => p.IsStored job).map (stretchRow job h c)⟩ := by
  have htake := extentBytes_stretch h hlen (p := ⟨off, e⟩) hget hin ⟨none, rows⟩
  rw [Stretch.bytes_eq_drop hlen (p := ⟨off, e⟩) hend] at htake
  by_cases hstored : (⟨off, e⟩ : Stretch).IsStored job
  · have hclose : closesAt job e (min e.feEnd job.filesize) := by
      rw [closesAt]
      split
      case isTrue => omega
      case isFalse hno =>
        have : e.feEnd ≤ job.filesize := hstored.2.resolve_left hno
        omega
    have hrow := piece_stretch h hlen (p := ⟨off, e⟩) hin (Fiemap.lt_feEnd_of_getExtent hget)
      hclose rows
    rw [Stretch.bytes_eq_drop hlen (p := ⟨off, e⟩) hend] at hrow
    refine ⟨none, ?_⟩
    rw [htake, hrow, List.filter_cons_of_pos (by simpa using hstored)]
    rfl
  · have hopen : e.isLast = false ∧ job.filesize < e.feEnd := by
      refine ⟨?_, ?_⟩
      · rw [← Bool.not_eq_true]
        exact fun hyes => hstored ⟨hin, .inl hyes⟩
      · by_contra hle
        exact hstored ⟨hin, .inr (Nat.le_of_not_lt hle)⟩
    have hsame := piece_open h hlen (p := ⟨off, e⟩) hin hopen.1 hopen.2 ⟨none, rows⟩
    rw [Stretch.bytes_eq_drop hlen (p := ⟨off, e⟩) hend] at hsame
    refine ⟨((⟨none, rows⟩ : ExtentAcc Digest).piece job h e off (c.drop off)).pending, ?_⟩
    rw [htake, List.filter_cons_of_neg (by simpa using hstored), List.filter_nil, List.map_nil,
      List.append_nil, Option.some.injEq, ExtentAcc.mk.injEq]
    exact ⟨rfl, hsame⟩

/-- Consuming the file from `off` on, the end of the extents before, stores the rows
    of the stretches ahead. The induction is on the extents ahead: a stretch is taken
    in one piece, and behind one that is not stored the file is over. -/
theorem extentBytes_stretches (h : Xxh Digest) (hlen : c.length = job.filesize)
    (before : List FiemapExtent) {ahead : List FiemapExtent} {off : Nat}
    (heq : job.fiemap.fmExtents = before ++ ahead)
    (hbefore : ∀ a ∈ before, a.feEnd ≤ off) (hahead : ∀ a ∈ ahead, off ≤ a.feLogical)
    (hothers : ∀ a ∈ ahead.dropLast, a.isLast = false)
    (hlast : ∀ a, ahead.getLast? = some a → a.isLast = true ∧ job.filesize ≤ a.feEnd)
    (hreach : ahead = [] → job.filesize ≤ off) (rows : List (ExtentCsum Digest)) :
    ∃ pending, extentBytes job h off (c.drop off) ⟨none, rows⟩ =
      some ⟨pending, rows ++
        ((stretches off ahead).filter fun p => p.IsStored job).map (stretchRow job h c)⟩ := by
  induction ahead generalizing before off rows with
  | nil =>
    have hnil : c.drop off = [] := List.drop_eq_nil_of_le (by have := hreach rfl; omega)
    exact ⟨none, by simp [hnil, extentBytes, stretches]⟩
  | cons e ahead ih =>
    have hpos := job.fiemap.positive e (by rw [heq]; simp)
    have hsorted := job.fiemap.sorted
    rw [heq, List.pairwise_append, List.pairwise_cons] at hsorted
    have hstart : off < e.feEnd := by
      have := hahead e List.mem_cons_self
      unfold FiemapExtent.feEnd
      omega
    have hget : job.fiemap.getExtent off = some e :=
      Fiemap.getExtent_eq_of_append heq hbefore hstart
    -- Only the last extent is flagged, and it reaches the end of the file.
    have hflag : e.isLast = true → job.filesize ≤ e.feEnd := by
      intro hyes
      cases ahead with
      | nil => exact (hlast e rfl).2
      | cons e' ahead =>
        rw [hothers e (by simp)] at hyes
        cases hyes
    have hnext : ∀ a ∈ ahead, e.feEnd ≤ a.feLogical := hsorted.2.1.1
    by_cases hin : off < job.filesize
    · by_cases hgoes : e.feEnd < job.filesize
      · -- The extents ahead take the bytes behind the end of this one.
        have hno : e.isLast = false := by
          rw [← Bool.not_eq_true]
          intro hyes
          have := hflag hyes
          omega
        have hstored : (⟨off, e⟩ : Stretch).IsStored job := ⟨hin, .inr (Nat.le_of_lt hgoes)⟩
        have hbefore' : ∀ a ∈ before ++ [e], a.feEnd ≤ e.feEnd := by
          intro a ha
          rcases List.mem_append.1 ha with ha | ha
          · exact Nat.le_trans (hbefore a ha) (Nat.le_of_lt hstart)
          · rw [List.mem_singleton.1 ha]
        obtain ⟨pending, hrest⟩ := ih (before ++ [e]) (by rw [heq, List.append_assoc]; rfl)
          hbefore' hnext
          (fun a ha => hothers a (by
            rw [List.dropLast_cons_of_ne_nil (by rintro rfl; cases ha)]
            exact List.mem_cons_of_mem _ ha))
          (fun a ha => hlast a (by rw [List.getLast?_cons, ha]; rfl))
          (fun hnil => by
            subst hnil
            exact (hlast e rfl).2)
          (rows ++ [stretchRow job h c ⟨off, e⟩])
        refine ⟨pending, ?_⟩
        rw [extentBytes_innerStretch h hlen hget hin hno hgoes, hrest, stretches,
          List.filter_cons_of_pos (by simpa using hstored), List.map_cons, List.append_assoc]
        rfl
      · -- The file is over behind this extent.
        have hends : ∀ a ∈ ahead, job.filesize ≤ a.feEnd := fun a ha =>
          Nat.le_trans (Nat.le_of_not_lt hgoes)
            (Nat.le_trans (hnext a ha) (Nat.le_add_right _ _))
        have hbehind := filter_isStored_behind (Nat.le_of_not_lt hgoes) hends
        obtain ⟨pending, hrest⟩ := extentBytes_endStretch h hlen hget hin
          (Nat.le_of_not_lt hgoes) rows
        refine ⟨pending, ?_⟩
        have hsplit : stretches off (e :: ahead) = [⟨off, e⟩] ++ stretches e.feEnd ahead := rfl
        rw [hrest, hsplit, List.filter_append, hbehind, List.append_nil]
    · have hpast : job.filesize ≤ off := Nat.le_of_not_lt hin
      have hnil : c.drop off = [] := List.drop_eq_nil_of_le (by omega)
      refine ⟨none, ?_⟩
      rw [hnil, filter_isStored_behind hpast fun a ha => Nat.le_trans hpast
        (Nat.le_trans (hahead a ha) (Nat.le_add_right _ _))]
      simp [extentBytes]

end Ahead

-- ---------------------------------------------------------------------------
-- A whole scan
-- ---------------------------------------------------------------------------

/-- The extent rows that a scan commits when it never fast-forwards and the last
    extent of the map, the only flagged one, reaches the end of the file: those of the
    stored stretches, for every read schedule. -/
theorem csumWholeFile_stretches {job : ScanJob} (h : Xxh Digest) {c : List Byte}
    (buffer : ThreadBuffer) (hlen : c.length = job.filesize) (hreads : ReadsFile job c)
    (hlast : ∃ e, job.fiemap.fmExtents.getLast? = some e ∧ e.isLast = true ∧
      job.filesize ≤ e.feEnd)
    (hothers : ∀ e ∈ job.fiemap.fmExtents.dropLast, e.isLast = false)
    (hplain : job.filesize < readBufLen ∨ ∀ e ∈ job.fiemap.fmExtents, e.isSkipped = false) :
    ∃ commit, csumWholeFile job h buffer = some commit ∧
      commit.extents =
        if job.options.onlyWholeFiles then []
        else ((stretches 0 job.fiemap.fmExtents).filter fun p => p.IsStored job).map
          (stretchRow job h c) := by
  have hpos := job.filesize_pos
  obtain ⟨last, hget, hflag, hend⟩ := hlast
  have hmem := List.mem_of_getLast? hget
  have hext : job.fiemap.getExtent (job.filesize - 1) ≠ none := by
    rw [Ne, Fiemap.getExtent_eq_none_iff]
    intro hall
    have := hall last hmem
    omega
  obtain ⟨s, hrun, hoff, rows, hfed, -, -⟩ :=
    scanLoop_plain h hlen hreads (fillsWith_plain hplain) (.inr hext) buffer
  refine ⟨_, by
    rw [csumWholeFile, csumWholeFileWith, hrun]
    simp only [Option.bind_some, commitOf, hoff, ne_eq, not_true_eq_false, if_false]
    rfl, ?_⟩
  have hacc := hfed.extents
  cases hwhole : job.options.onlyWholeFiles with
  | true =>
    simp only [hwhole, if_true] at hacc ⊢
    exact congrArg ExtentAcc.extents hacc
  | false =>
    simp only [hwhole, Bool.false_eq_true, if_false] at hacc ⊢
    obtain ⟨pending, hall⟩ := extentBytes_stretches h hlen [] rfl (by simp)
      (fun a _ => Nat.zero_le a.feLogical) hothers
      (fun a ha => by
        rw [hget] at ha
        obtain rfl := Option.some.inj ha
        exact ⟨hflag, hend⟩)
      (fun hnil => absurd hnil (List.ne_nil_of_mem hmem)) []
    rw [List.drop_zero, hacc] at hall
    exact congrArg ExtentAcc.extents (Option.some.inj hall)

end Duperemove
