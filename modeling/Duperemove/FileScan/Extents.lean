-- SUMMARY: `process_extents` consumes the file byte by byte: the chunks it is called with do not matter.
import Duperemove.FileScan.Model

/-!
# The extent consumer

`process_extents` cuts the buffer at the extent borders and adds whole pieces to
the running checksum of an extent. Its meaning is simpler than its loop: each
byte goes to the extent that the map gives for its offset, and an extent is
stored when its last byte inside the file has gone by. `processExtents_eq` says
that the loop computes this for any piece of the file, so that the rows do not
depend on how the file is cut.
-/

namespace Duperemove

variable {Digest : Type}

-- ---------------------------------------------------------------------------
-- The meaning, one byte at a time
-- ---------------------------------------------------------------------------

/-- What the extent consumer carries from byte to byte: the message of the
    extent under way, and the entries stored so far. -/
structure ExtentAcc (Digest : Type) where
  pending : Option (List Byte)
  extents : List (ExtentCsum Digest)
  deriving DecidableEq

namespace ExtentAcc

def add (acc : ExtentAcc Digest) (e : FiemapExtent) (bytes : List Byte) : ExtentAcc Digest :=
  if e.isSkipped then acc else { acc with pending := some (acc.pending.getD [] ++ bytes) }

def close (h : Xxh Digest) (e : FiemapExtent) (acc : ExtentAcc Digest) : ExtentAcc Digest :=
  if e.isSkipped then { acc with extents := acc.extents ++ [⟨0, 0, 0, none⟩] }
  else
    { pending := none
      extents := acc.extents ++
        [⟨e.feLogical, e.fePhysical, e.feLength, acc.pending.map h.xxh128⟩] }

theorem add_add (acc : ExtentAcc Digest) (e : FiemapExtent) (as bs : List Byte) :
    (acc.add e as).add e bs = acc.add e (as ++ bs) := by
  by_cases hskip : e.isSkipped <;> simp [add, hskip]

end ExtentAcc

/-- Whether an extent is stored when the consumer arrives at offset `off`: at
    its end, or at the end of the file for the extent that is flagged as the last
    one. -/
def closesAt (job : ScanJob) (e : FiemapExtent) (off : Nat) : Prop :=
  off = if e.isLast then job.filesize else e.feEnd

instance (job : ScanJob) (e : FiemapExtent) (off : Nat) : Decidable (closesAt job e off) :=
  inferInstanceAs (Decidable (off = if e.isLast then job.filesize else e.feEnd))

/-- Add bytes that belong to `e`, and store `e` when they end with its last
    byte. -/
def ExtentAcc.piece (job : ScanJob) (h : Xxh Digest) (e : FiemapExtent) (off : Nat)
    (bytes : List Byte) (acc : ExtentAcc Digest) : ExtentAcc Digest :=
  if closesAt job e (off + bytes.length) then (acc.add e bytes).close h e else acc.add e bytes

/-- Consume bytes from offset `off` on, one at a time. `none` is an offset
    without an extent. -/
def extentBytes (job : ScanJob) (h : Xxh Digest) :
    Nat → List Byte → ExtentAcc Digest → Option (ExtentAcc Digest)
  | _, [], acc => some acc
  | off, b :: bytes, acc =>
    match job.fiemap.getExtent off with
    | none => none
    | some e => extentBytes job h (off + 1) bytes (acc.piece job h e off [b])

theorem extentBytes_append (job : ScanJob) (h : Xxh Digest) (off : Nat) (as bs : List Byte)
    (acc : ExtentAcc Digest) :
    extentBytes job h off (as ++ bs) acc =
      (extentBytes job h off as acc).bind (extentBytes job h (off + as.length) bs) := by
  induction as generalizing off acc with
  | nil => simp [extentBytes]
  | cons a as ih =>
    simp only [List.cons_append, extentBytes, List.length_cons]
    cases job.fiemap.getExtent off with
    | none => rfl
    | some e => simp only [ih, Nat.add_comm as.length 1, Nat.add_assoc]

/-- Bytes that the map gives to one extent go to it in one piece. -/
theorem extentBytes_piece {job : ScanJob} (h : Xxh Digest) {off : Nat} {e : FiemapExtent}
    {bytes : List Byte} (hne : bytes ≠ []) (he : job.fiemap.getExtent off = some e)
    (hend : off + bytes.length ≤ e.feEnd) (hfile : off + bytes.length ≤ job.filesize)
    (acc : ExtentAcc Digest) :
    extentBytes job h off bytes acc = some (acc.piece job h e off bytes) := by
  induction bytes generalizing off acc with
  | nil => exact absurd rfl hne
  | cons b bytes ih =>
    simp only [extentBytes, he]
    cases bytes with
    | nil => rfl
    | cons b' bytes =>
      simp only [List.length_cons] at hend hfile
      -- The extent cannot be stored before its last byte of this piece.
      have hopen : ¬ closesAt job e (off + [b].length) := by
        simp only [closesAt, List.length_cons, List.length_nil]
        split <;> omega
      have he' : job.fiemap.getExtent (off + 1) = some e :=
        Fiemap.getExtent_congr he (by omega) (by omega)
      rw [ih (by simp) he' (by simp; omega) (by simp; omega)]
      have hlen : off + 1 + (b' :: bytes).length = off + (b :: b' :: bytes).length := by
        simp only [List.length_cons]
        omega
      have hpiece : acc.piece job h e off [b] = acc.add e [b] := by
        unfold ExtentAcc.piece
        rw [if_neg hopen]
      rw [hpiece]
      unfold ExtentAcc.piece
      rw [hlen, ExtentAcc.add_add]
      rfl

/-- The consumer stops exactly when one of the bytes has no extent. -/
theorem extentBytes_eq_none_iff {job : ScanJob} {h : Xxh Digest} {off : Nat} {bytes : List Byte}
    {acc : ExtentAcc Digest} :
    extentBytes job h off bytes acc = none ↔
      ∃ o, off ≤ o ∧ o < off + bytes.length ∧ job.fiemap.getExtent o = none := by
  induction bytes generalizing off acc with
  | nil =>
    simp only [extentBytes, List.length_nil, reduceCtorEq, false_iff]
    rintro ⟨o, hle, hlt, _⟩
    omega
  | cons b bytes ih =>
    simp only [extentBytes, List.length_cons]
    cases he : job.fiemap.getExtent off with
    | none => exact ⟨fun _ => ⟨off, by omega, by omega, he⟩, fun _ => rfl⟩
    | some e =>
      rw [ih]
      constructor
      · rintro ⟨o, hle, hlt, ho⟩
        exact ⟨o, by omega, by omega, ho⟩
      · rintro ⟨o, hle, hlt, ho⟩
        have hne : o ≠ off := by
          rintro rfl
          rw [he] at ho
          cases ho
        exact ⟨o, by omega, by omega, ho⟩

-- ---------------------------------------------------------------------------
-- The loop computes the meaning
-- ---------------------------------------------------------------------------

/-- The accumulator that a walk over the buffer stands for. -/
def ExtentWalk.acc (w : ExtentWalk Digest) : ExtentAcc Digest :=
  ⟨w.extentCsum.map RunningChecksum.bytes, w.extents⟩

theorem storeExtent_acc (h : Xxh Digest) (e : FiemapExtent) (w : ExtentWalk Digest) :
    (storeExtent h e w).acc = w.acc.close h e := by
  have hfinish : w.extentCsum.map (finishRunningChecksum h) =
      (w.extentCsum.map RunningChecksum.bytes).map h.xxh128 := by
    cases w.extentCsum with
    | none => rfl
    | some c => simp [finishRunningChecksum_eq]
  by_cases hskip : e.isSkipped
  · simp [storeExtent, ExtentAcc.close, ExtentWalk.acc, hskip]
  · simp [storeExtent, ExtentAcc.close, ExtentWalk.acc, hskip, hfinish]

@[simp] theorem storeExtent_fileOff (h : Xxh Digest) (e : FiemapExtent) (w : ExtentWalk Digest) :
    (storeExtent h e w).fileOff = w.fileOff := by
  unfold storeExtent
  split <;> rfl

@[simp] theorem storeExtent_bufOff (h : Xxh Digest) (e : FiemapExtent) (w : ExtentWalk Digest) :
    (storeExtent h e w).bufOff = w.bufOff := by
  unfold storeExtent
  split <;> rfl

/-- The wrapping test of the source is `closesAt` for every offset. -/
theorem wrap_dummyOf_iff {job : ScanJob} {e : FiemapExtent} {off : Nat}
    (hfits : e.feEnd + 1 < 2 ^ 64) (hoff : off < 2 ^ 64) :
    Word.wrap 64 (off + dummyOf job e) = e.feEnd ↔ closesAt job e off := by
  have hsize := job.filesize_lt
  unfold dummyOf closesAt
  by_cases hlast : e.isLast
  · simp only [hlast, if_true]
    exact Word.wrap_add_sub_eq_iff (by omega) (by omega) (by omega)
  · simp only [hlast, Bool.false_eq_true, if_false, Nat.add_zero]
    rw [Word.wrap_of_lt (by omega)]

section Walk

variable {job : ScanJob} {h : Xxh Digest} {off bytes : Nat} {buf : List Byte}
variable {acc : ExtentAcc Digest}

/-- The invariant of the loop: the rest of the chunk, consumed from the walk's
    accumulator, gives what the whole chunk gives from the start. -/
structure WalkInv (job : ScanJob) (h : Xxh Digest) (off bytes : Nat) (buf : List Byte)
    (acc : ExtentAcc Digest) (w : ExtentWalk Digest) : Prop where
  fileOff : w.fileOff = off + w.bufOff
  bufOff : w.bufOff ≤ bytes
  rest : extentBytes job h w.fileOff ((buf.take bytes).drop w.bufOff) w.acc =
    extentBytes job h off (buf.take bytes) acc

/-- What the loop has computed when it leaves. -/
def WalkPost (job : ScanJob) (h : Xxh Digest) (off bytes : Nat) (buf : List Byte)
    (acc : ExtentAcc Digest) (r : ExtentsExit × ExtentWalk Digest) : Prop :=
  (r.1 = .done ∧ extentBytes job h off (buf.take bytes) acc = some r.2.acc) ∨
    (r.1 = .noExtent ∧ extentBytes job h off (buf.take bytes) acc = none)

/-- A round inside the chunk whose offset has an extent adds one piece. -/
theorem extentRound_piece (hfile : off + bytes ≤ job.filesize) (hbuf : bytes ≤ buf.length)
    {w : ExtentWalk Digest} (hw : WalkInv job h off bytes buf acc w)
    (hlt : w.fileOff < off + bytes) {e : FiemapExtent}
    (he : job.fiemap.getExtent w.fileOff = some e) :
    ∃ w', extentRound job h off bytes buf w = .again w' ∧
      WalkInv job h off bytes buf acc w' ∧ bytes - w'.bufOff < bytes - w.bufOff := by
  have hoff := hw.fileOff
  have hend : w.fileOff < e.feEnd := Fiemap.lt_feEnd_of_getExtent he
  have hfits := job.fiemap.fits e (Fiemap.mem_of_getExtent he)
  obtain ⟨toAdd, htoAdd, hadd⟩ : ∃ n,
      (if e.feEnd > off + bytes then bytes - w.bufOff else e.feEnd - w.fileOff) = n ∧
        0 < n ∧ w.bufOff + n ≤ bytes ∧ w.fileOff + n ≤ e.feEnd := by
    refine ⟨_, rfl, ?_⟩
    split <;> omega
  obtain ⟨hpos, hchunk, hext⟩ := hadd
  let piece := (buf.drop w.bufOff).take toAdd
  have hpieceLen : piece.length = toAdd := by
    simp only [piece, List.length_take, List.length_drop]
    omega
  let csum := if e.isSkipped then w.extentCsum
    else some (addToRunningChecksum (w.extentCsum.getD startRunningChecksum) piece)
  let w₁ : ExtentWalk Digest :=
    { w with fileOff := w.fileOff + toAdd, bufOff := w.bufOff + toAdd, extentCsum := csum }
  let w₂ := if closesAt job e w₁.fileOff then storeExtent h e w₁ else w₁
  have hround : extentRound job h off bytes buf w = .again w₂ := by
    have hassert : w.fileOff + toAdd ≤ off + bytes := by omega
    simp only [extentRound, hlt, if_true, he, htoAdd, hassert]
    have hsize := job.filesize_lt
    simp only [wrap_dummyOf_iff hfits (show w.fileOff + toAdd < 2 ^ 64 by omega)]
    simp only [w₂, w₁, csum, piece]
    split <;> rfl
  have hacc₁ : w₁.acc = w.acc.add e piece := by
    by_cases hskip : e.isSkipped
    · simp [w₁, csum, ExtentWalk.acc, ExtentAcc.add, hskip]
    · cases hc : w.extentCsum <;> simp [w₁, csum, ExtentWalk.acc, ExtentAcc.add, hskip, hc]
  have hacc₂ : w₂.acc = w.acc.piece job h e w.fileOff piece := by
    simp only [w₂, ExtentAcc.piece, hpieceLen, w₁]
    split
    · rw [storeExtent_acc]
      exact congrArg (ExtentAcc.close h e) hacc₁
    · exact hacc₁
  have hfile₂ : w₂.fileOff = w.fileOff + toAdd := by
    simp only [w₂]
    split <;> simp [w₁]
  have hbuf₂ : w₂.bufOff = w.bufOff + toAdd := by
    simp only [w₂]
    split <;> simp [w₁]
  have hcut : (buf.take bytes).drop w.bufOff = piece ++ (buf.take bytes).drop w₂.bufOff := by
    have hpiece : piece = ((buf.take bytes).drop w.bufOff).take toAdd := by
      simp only [piece, List.drop_take, List.take_take]
      congr 1
      omega
    rw [hpiece, hbuf₂, ← List.drop_drop, List.take_append_drop]
  refine ⟨w₂, hround, ⟨by omega, by omega, ?_⟩, by omega⟩
  rw [← hw.rest, hcut, extentBytes_append]
  have hne : piece ≠ [] := by
    intro hnil
    rw [hnil] at hpieceLen
    simp at hpieceLen
    omega
  rw [extentBytes_piece h hne he (by omega) (by omega), hpieceLen, hfile₂, hacc₂]
  rfl

/-- A round goes on behind a piece, or the loop leaves with what it computed. -/
theorem extentRound_spec (hfile : off + bytes ≤ job.filesize) (hbuf : bytes ≤ buf.length)
    {w : ExtentWalk Digest} (hw : WalkInv job h off bytes buf acc w) :
    (∃ w', extentRound job h off bytes buf w = .again w' ∧
      WalkInv job h off bytes buf acc w' ∧ bytes - w'.bufOff < bytes - w.bufOff) ∨
    ∃ r, extentRound job h off bytes buf w = .leave r ∧ WalkPost job h off bytes buf acc r := by
  have hoff := hw.fileOff
  have hle := hw.bufOff
  by_cases hlt : w.fileOff < off + bytes
  · cases he : job.fiemap.getExtent w.fileOff with
    | none =>
      right
      simp only [extentRound, hlt, if_true, he]
      refine ⟨_, rfl, .inr ⟨rfl, ?_⟩⟩
      rw [← hw.rest, extentBytes_eq_none_iff]
      refine ⟨w.fileOff, Nat.le_refl _, ?_, he⟩
      simp only [List.length_drop, List.length_take]
      omega
    | some e => exact .inl (extentRound_piece hfile hbuf hw hlt he)
  · right
    simp only [extentRound, hlt, if_false]
    refine ⟨_, rfl, .inl ⟨rfl, ?_⟩⟩
    have hall : (buf.take bytes).drop w.bufOff = [] := by
      apply List.drop_eq_nil_of_le
      simp only [List.length_take]
      omega
    rw [← hw.rest, hall]
    rfl

end Walk

/-- The accumulator that a scan state stands for. -/
def ScanState.extentAcc (s : ScanState Digest) : ExtentAcc Digest :=
  ⟨s.extentCsum.map RunningChecksum.bytes, s.hashes.extents⟩

/-- `process_extents` on bytes of the buffer that lie inside the file: it ends,
    its assertion holds, and it computes what consuming the bytes one by one
    gives. -/
theorem processExtents_eq {job : ScanJob} (h : Xxh Digest) {s : ScanState Digest} {bytes : Nat}
    (hfile : s.off + bytes ≤ job.filesize) (hbuf : bytes ≤ s.buffer.buf.length) :
    ∃ r, processExtents job h s bytes = some r ∧
      WalkPost job h s.off bytes s.buffer.buf s.extentAcc r := by
  refine Loop.run_total (WalkInv job h s.off bytes s.buffer.buf s.extentAcc)
    (fun w => bytes - w.bufOff) ?_ (bytes + 1) _ ⟨by simp, Nat.zero_le _, rfl⟩ (by simp)
  intro w hw
  exact extentRound_spec hfile hbuf hw

end Duperemove
