-- SUMMARY: The shared bytes that a pass reports as gained, and when they are the difference it made.
import Duperemove.Dedupe.Inside
import Duperemove.Fiemap.Shared
import Mathlib.Data.List.TakeWhile
import Mathlib.Data.Nat.ModEq

/-!
# The reported gain

`dedupe_extent_list` adds up the shared bytes of a group before and after the dedupe,
and reports the difference. The sum before is taken from a field of the extents that
both functions which insert them leave at zero. The sum after comes from walks over the
extent maps, which end at the first file that does not open or cannot be mapped; in the
second case the bytes of the range in front of it are added once more.
-/

namespace Duperemove

-- ---------------------------------------------------------------------------
-- The two sums
-- ---------------------------------------------------------------------------

/-- `add_shared_extents` -/
def addSharedExtents (dext : DupeExtents) (shared : Nat) : Nat :=
  dext.deExtents.foldl (fun shared e => Word.wrap 64 (shared + e.eSharedBytes)) shared

/-- The files behind a dedupe: the errno of opening one, whether its extents can be mapped,
    and its extent map. -/
structure FilesAfter where
  opens : FileId → Option Nat
  canMap : FileId → Bool
  fiemap : FileId → Fiemap

namespace FilesAfter

def doFiemap (w : FilesAfter) (file : FileId) : Option (List FiemapExtent) :=
  if w.canMap file then some (w.fiemap file).fmExtents else none

/-- `add_shared_extents_post`, from some extent on. `bytes` keeps its value from one round
    to the next. `none` is the abort of `fiemap_count_shared`. -/
def addSharedExtentsPost (w : FilesAfter) (deLen : Nat) :
    List ResultExtent → (bytes shared : Nat) → Option Nat
  | [], _, shared => some shared
  | extent :: extents, bytes, shared =>
    match w.opens extent.eFile.addr with
    | some _ => some shared
    | none =>
      match fiemapCountShared (w.doFiemap extent.eFile.addr) extent.eLoff
          (Word.wrap 64 (extent.eLoff + deLen)) bytes with
      | .aborted => none
      | .returned ret bytes =>
        let shared := Word.wrap 64 (shared + bytes)
        if ret ≠ 0 then some shared else addSharedExtentsPost w deLen extents bytes shared

end FilesAfter

/-- How `dedupe_extent_list` ends, with `*fiemap_bytes`. -/
inductive GainExit where
  | returned (fiemapBytes : Nat) (dext : DupeExtents)
  | cleaned (fiemapBytes : Nat)
  | stopped (exit : DriverExit)
  | broken

/-- `*fiemap_bytes` behind a pass over a group that was not freed. -/
def GainExit.bytes : GainExit → Option Nat
  | .returned fiemapBytes _ => some fiemapBytes
  | _ => none

theorem GainExit.bytes_eq_some {exit : GainExit} {fiemapBytes : Nat} :
    exit.bytes = some fiemapBytes ↔ ∃ dext, exit = .returned fiemapBytes dext := by
  cases exit <;> simp [GainExit.bytes]

/-- `dedupe_extent_list` on the group `p` with its sums. The group is the same in front of
    the loop over its extents and behind it. -/
def dedupeGroupGain (w : DedupeWorld) (files : FilesAfter) (res : ResultsTree)
    (p : Nat × DigestBytes) (fsBlocksize kernBytes fiemapBytes : Nat) : GainExit :=
  match dedupeGroup w res p fsBlocksize kernBytes with
  | .cleaned _ => .cleaned fiemapBytes
  | .broken => .broken
  | .ran exit _ res =>
    match res.root[p]? with
    | none => .broken
    | some dext =>
      if exit ≠ .returned then .stopped exit
      else
        let sharedPrev := addSharedExtents dext 0
        match files.addSharedExtentsPost dext.deLen dext.deExtents 0 0 with
        | none => .broken
        | some sharedPost =>
          if sharedPrev < sharedPost then
            .returned (Word.wrap 64 (fiemapBytes + Word.sub 64 sharedPost sharedPrev)) dext
          else .returned fiemapBytes dext

-- ---------------------------------------------------------------------------
-- What should be reported
-- ---------------------------------------------------------------------------

/-- The shared bytes of a range of a group. -/
def rangeShared (fiemap : FileId → Fiemap) (deLen : Nat) (e : ResultExtent) : Nat :=
  (sharedOffsets (fiemap e.eFile.addr).fmExtents e.eLoff (e.eLoff + deLen)).card

/-- The shared bytes of some ranges, each counted once. -/
def sharedBytes (fiemap : FileId → Fiemap) (deLen : Nat) (extents : List ResultExtent) : Nat :=
  (extents.map (rangeShared fiemap deLen)).sum

/-- What is added to `*fiemap_bytes` is the shared bytes after the dedupe without those
    before it, or nothing. -/
def ReportsDifference (before after : FileId → Fiemap) (dext : DupeExtents)
    (fiemapBytes fiemapBytes' : Nat) : Prop :=
  fiemapBytes' = Word.wrap 64 (fiemapBytes +
    (sharedBytes after dext.deLen dext.deExtents - sharedBytes before dext.deLen dext.deExtents))

namespace FilesAfter

variable (w : FilesAfter)

/-- The file of an extent opens, and its extents can be mapped. -/
def answers (e : ResultExtent) : Bool := (w.opens e.eFile.addr).isNone && w.canMap e.eFile.addr

/-- The ranges in front of the first one without an answer, and those from it on. -/
def counted (extents : List ResultExtent) : List ResultExtent := extents.takeWhile w.answers

def uncounted (extents : List ResultExtent) : List ResultExtent := extents.dropWhile w.answers

/-- The bytes that are added once more: those of the range in front of one whose file opens
    but cannot be mapped. `bytes` stands for a range in front of the first one. -/
def countedTwice (deLen : Nat) (extents : List ResultExtent) (bytes : Nat) : Nat :=
  match w.uncounted extents with
  | [] => 0
  | e :: _ =>
    if (w.opens e.eFile.addr).isNone then
      ((w.counted extents).getLast?.map (rangeShared w.fiemap deLen)).getD bytes
    else 0

/-- The bytes that were shared before the dedupe make up for those that are not counted, or
    nothing is counted and nothing was gained. All is modulo 2 ^ 64. -/
def Balances (before : FileId → Fiemap) (dext : DupeExtents) : Prop :=
  let prev := sharedBytes before dext.deLen dext.deExtents
  let post := sharedBytes w.fiemap dext.deLen dext.deExtents
  let twice := w.countedTwice dext.deLen dext.deExtents 0
  prev ≤ post ∧
      prev + twice ≡ sharedBytes w.fiemap dext.deLen (w.uncounted dext.deExtents) [MOD 2 ^ 64] ∨
    post ≤ prev ∧
      sharedBytes w.fiemap dext.deLen (w.counted dext.deExtents) + twice ≡ 0 [MOD 2 ^ 64]

end FilesAfter

-- ---------------------------------------------------------------------------
-- The sum before
-- ---------------------------------------------------------------------------

/-- No extent in the tree has shared bytes. -/
def ResultsTree.Uncounted (res : ResultsTree) : Prop :=
  ∀ (k : Nat × DigestBytes) (g : DupeExtents), res.root[k]? = some g →
    ∀ e ∈ g.deExtents, e.eSharedBytes = 0

namespace ResultsTree

section Uncounted

variable {res res' : ResultsTree} {g g' : DupeExtents} {e : ResultExtent}

theorem uncounted_insertExtent (hg : ∀ x ∈ g.deExtents, x.eSharedBytes = 0)
    (he : e.eSharedBytes = 0) : ∀ x ∈ (g.insertExtent e).2.deExtents, x.eSharedBytes = 0 := by
  unfold DupeExtents.insertExtent insertExtentListFree
  by_cases hin : e.key ∈ g.deExtentsRoot
  · rw [dif_pos hin]
    exact hg
  · rw [dif_neg hin]
    intro x hx
    rcases List.mem_append.1 hx with hold | hnew
    · exact hg x hold
    · rw [List.mem_singleton.1 hnew]
      exact he

theorem Uncounted.of_others {k : Nat × DigestBytes} (h : res.Uncounted)
    (hothers : ∀ k', k' ≠ k → res'.root[k']? = res.root[k']?)
    (hhere : ∀ g, res'.root[k]? = some g → ∀ x ∈ g.deExtents, x.eSharedBytes = 0) :
    res'.Uncounted := by
  intro k' g hg
  by_cases hk : k' = k
  · exact hhere g (hk ▸ hg)
  · exact h k' g (hothers k' hk ▸ hg)

theorem Allocated.uncounted {k : Nat × DigestBytes} (ha : Allocated res k g res')
    (h : res.Uncounted) : res'.Uncounted := by
  refine h.of_others ha.others fun g' hg' => ?_
  rw [ha.here] at hg'
  cases hg'
  rcases ha.group with hold | ⟨-, rfl⟩
  · exact h k g hold
  · exact fun x hx => absurd hx List.not_mem_nil

theorem Uncounted.setGroup (h : res.Uncounted) (hg : ∀ x ∈ g.deExtents, x.eSharedBytes = 0) :
    (res.setGroup g).Uncounted := by
  refine h.of_others (k := (g.deLen, g.deHash)) (fun k' hk => ?_) fun g' hg' => ?_
  · exact (getElem?_setGroup _).trans (if_neg (Ne.symm hk))
  · rw [getElem?_setGroup, if_pos rfl] at hg'
    cases hg'
    exact hg

/-- Neither function that inserts extents fills the field. -/
theorem Uncounted.apply (h : res.Uncounted) (hc : Consistent res) {op : TreeOp}
    (hop : op.Present res) (happly : op.apply res = some res') : res'.Uncounted := by
  cases op with
  | initResultsTree =>
    cases happly
    exact fun k g hg => by simp [empty] at hg
  | insertOneResult digest file startoff len poff =>
    obtain ⟨g, res₁, hfind, ha⟩ := findAllocDext_allocated res digest len
    have h₁ := ha.uncounted h
    have hlen : g.deLen = len := congrArg Prod.fst (res₁.keyed _ g ha.here)
    have hgrown := uncounted_insertExtent (h₁ _ g ha.here)
      (rfl : ({ allocExtent file startoff with ePoff := poff, ePlen := len } :
        ResultExtent).eSharedBytes = 0)
    simp only [TreeOp.apply, ResultsTree.insertOneResult, hfind, Option.bind_some, hlen, ne_eq,
      not_true_eq_false, if_false] at happly
    unfold DupeExtents.insertExtent at hgrown
    split at happly <;> cases happly <;> rename_i hinsert
    · exact h₁
    · rw [hinsert] at hgrown
      exact h₁.setGroup hgrown
  | insertResult p =>
    obtain ⟨addScore, g, res₁, hfound, ha⟩ := findAllocScore_allocated res p.digest p.len
    have h₁ := ha.uncounted h
    have hlen : g.deLen = p.len := congrArg Prod.fst (res₁.keyed _ g ha.here)
    have hfind : res₁.findDupeExtents p.digest p.len = some g := ha.here
    simp only [TreeOp.apply, ResultsTree.insertResult, ResultsTree.insertPair, hfound, hfind,
      Option.bind_some, hlen, ne_eq, not_true_eq_false, if_false, Option.map_some] at happly
    cases happly
    exact h₁.setGroup (uncounted_insertExtent (uncounted_insertExtent (h₁ _ g ha.here) rfl) rfl)
  | removeExtent e =>
    obtain ⟨g, hg, he⟩ := hop
    rw [mem_groups_iff] at hg
    obtain ⟨left, res₁, hremove, hremoved⟩ := removeExtent_spec hg he
    rw [TreeOp.apply, hremove, Option.map_some] at happly
    cases happly
    refine h.of_others hremoved.others fun g' hg' => ?_
    by_cases hfew : g.deNumDupes ≤ 2
    · rw [hremoved.gone hfew] at hg'
      cases hg'
    · obtain ⟨g'', hg'', hextents⟩ := hremoved.stays (by omega)
      rw [hg''] at hg'
      cases hg'
      rw [hextents]
      exact fun x hx => h _ g hg x (List.mem_of_mem_erase hx)
  | dupeExtentsFree k =>
    obtain ⟨g, hg, rfl⟩ := hop
    rw [mem_groups_iff] at hg
    obtain ⟨res₁, hfree, hfreed⟩ := dupeExtentsFree_spec hg (hc.nonempty _ g hg)
    rw [TreeOp.apply, hfree] at happly
    cases happly
    refine h.of_others hfreed.others fun g' hg' => ?_
    rw [hfreed.gone] at hg'
    cases hg'
  | freeResultsTree =>
    obtain ⟨res₁, hfree, hnone, -⟩ := freeResultsTree_spec hc
    rw [TreeOp.apply, hfree] at happly
    cases happly
    intro k g hg
    rw [hnone k] at hg
    cases hg

/-- In every reachable tree the extents have no shared bytes. -/
theorem Reachable.uncounted (h : Reachable res) : res.Uncounted := by
  induction h with
  | init => exact fun k g hg => by simp [empty] at hg
  | step op hres hop happly ih => exact ih.apply hres.consistent hop happly

end Uncounted

end ResultsTree

/-- The sum before is zero. -/
theorem addSharedExtents_eq_zero {dext : DupeExtents}
    (h : ∀ e ∈ dext.deExtents, e.eSharedBytes = 0) : addSharedExtents dext 0 = 0 := by
  unfold addSharedExtents
  generalize dext.deExtents = extents at h
  induction extents with
  | nil => rfl
  | cons e extents ih =>
    rw [List.foldl_cons, h e List.mem_cons_self]
    exact ih fun x hx => h x (List.mem_cons_of_mem _ hx)

-- ---------------------------------------------------------------------------
-- The sum after
-- ---------------------------------------------------------------------------

section After

variable {w : FilesAfter} {deLen : Nat} {e : ResultExtent}

/-- A range that is counted without an abort lies within 64 bits, and its count is exact. -/
theorem fiemapCountShared_range {doFiemap : Option (List FiemapExtent)} {bytes ret bytes' : Nat}
    (hoff : e.eLoff < 2 ^ 64) (hlen : deLen < 2 ^ 64)
    (hcount : fiemapCountShared doFiemap e.eLoff (Word.wrap 64 (e.eLoff + deLen)) bytes =
      .returned ret bytes') :
    (doFiemap = none → ret = 1 ∧ bytes' = bytes) ∧
      ∀ fiemap : FileId → Fiemap, doFiemap = some (fiemap e.eFile.addr).fmExtents →
        ret = 0 ∧ bytes' = rangeShared fiemap deLen e := by
  unfold fiemapCountShared at hcount
  have hlt : ¬ Word.wrap 64 (e.eLoff + deLen) ≤ e.eLoff := by
    intro hle
    rw [if_pos hle] at hcount
    cases hcount
  have hfits : e.eLoff + deLen < 2 ^ 64 := by
    unfold Word.wrap at hlt
    omega
  rw [if_neg hlt] at hcount
  constructor
  · rintro rfl
    cases hcount
    exact ⟨rfl, rfl⟩
  · rintro fiemap rfl
    have hdisj : (fiemap e.eFile.addr).fmExtents.Pairwise FiemapExtent.DisjointFrom :=
      (fiemap e.eFile.addr).sorted.imp fun h => FiemapExtent.disjointFrom_of_le (.inl h)
    have hends : ∀ x ∈ (fiemap e.eFile.addr).fmExtents, x.feEnd < 2 ^ 64 := fun x hx =>
      Nat.lt_of_succ_lt ((fiemap e.eFile.addr).fits x hx)
    rw [Word.wrap_of_lt hfits] at hcount hlt
    cases hcount
    exact ⟨rfl, foldl_countSharedOne (Nat.lt_of_not_le hlt) hfits hdisj hends⟩

/-- What an answer and a missing answer at the first range do to the sums. -/
theorem counted_of_answers (hyes : w.answers e = true) (extents : List ResultExtent) :
    sharedBytes w.fiemap deLen (w.counted (e :: extents)) =
      rangeShared w.fiemap deLen e + sharedBytes w.fiemap deLen (w.counted extents) := by
  rw [FilesAfter.counted, List.takeWhile_cons_of_pos hyes]
  rfl

theorem countedTwice_of_answers (hyes : w.answers e = true) (extents : List ResultExtent)
    (bytes : Nat) :
    w.countedTwice deLen (e :: extents) bytes =
      w.countedTwice deLen extents (rangeShared w.fiemap deLen e) := by
  unfold FilesAfter.countedTwice FilesAfter.uncounted FilesAfter.counted
  rw [List.takeWhile_cons_of_pos hyes, List.dropWhile_cons_of_pos hyes, List.getLast?_cons]
  cases (extents.takeWhile w.answers).getLast? <;> rfl

theorem counted_of_not_answers (hno : w.answers e = false) (extents : List ResultExtent) :
    sharedBytes w.fiemap deLen (w.counted (e :: extents)) = 0 := by
  rw [FilesAfter.counted, List.takeWhile_cons_of_neg (by rw [hno]; exact Bool.false_ne_true)]
  rfl

theorem countedTwice_of_not_answers (hno : w.answers e = false) (extents : List ResultExtent)
    (bytes : Nat) :
    w.countedTwice deLen (e :: extents) bytes =
      if (w.opens e.eFile.addr).isNone then bytes else 0 := by
  have hneg : ¬ w.answers e = true := by
    rw [hno]
    exact Bool.false_ne_true
  rw [FilesAfter.countedTwice, FilesAfter.uncounted, FilesAfter.counted,
    List.takeWhile_cons_of_neg hneg, List.dropWhile_cons_of_neg hneg]
  rfl

/-- The walk adds the ranges in front of the first one without an answer, and at its end
    perhaps one of them once more. -/
theorem addSharedExtentsPost_eq (hlen : deLen < 2 ^ 64) (extents : List ResultExtent)
    (hoff : ∀ e ∈ extents, e.eLoff < 2 ^ 64) (bytes : Nat) {shared sharedPost : Nat}
    (hshared : shared < 2 ^ 64)
    (hrun : w.addSharedExtentsPost deLen extents bytes shared = some sharedPost) :
    sharedPost = Word.wrap 64 (shared + (sharedBytes w.fiemap deLen (w.counted extents) +
      w.countedTwice deLen extents bytes)) := by
  induction extents generalizing bytes shared with
  | nil =>
    cases hrun
    exact (Word.wrap_of_lt hshared).symm
  | cons e extents ih =>
    rw [FilesAfter.addSharedExtentsPost] at hrun
    cases hopen : w.opens e.eFile.addr with
    | some errno =>
      have hno : w.answers e = false := by rw [FilesAfter.answers, hopen]; rfl
      rw [hopen] at hrun
      cases hrun
      rw [counted_of_not_answers hno, countedTwice_of_not_answers hno, hopen]
      exact (Word.wrap_of_lt hshared).symm
    | none =>
      simp only [hopen] at hrun
      cases hcount : fiemapCountShared (w.doFiemap e.eFile.addr) e.eLoff
          (Word.wrap 64 (e.eLoff + deLen)) bytes with
      | aborted =>
        rw [hcount] at hrun
        cases hrun
      | returned ret bytes' =>
        have hrange := fiemapCountShared_range (hoff e List.mem_cons_self) hlen hcount
        rw [hcount] at hrun
        cases hmap : w.canMap e.eFile.addr with
        | false =>
          have hno : w.answers e = false := by rw [FilesAfter.answers, hopen, hmap]; rfl
          obtain ⟨rfl, rfl⟩ := hrange.1 (by rw [FilesAfter.doFiemap, hmap]; rfl)
          cases hrun
          rw [counted_of_not_answers hno, countedTwice_of_not_answers hno, hopen, Nat.zero_add]
          rfl
        | true =>
          have hyes : w.answers e = true := by rw [FilesAfter.answers, hopen, hmap]; rfl
          obtain ⟨rfl, rfl⟩ := hrange.2 w.fiemap (by rw [FilesAfter.doFiemap, if_pos hmap])
          rw [ih (fun x hx => hoff x (List.mem_cons_of_mem _ hx)) _ (Word.wrap_lt 64 _) hrun,
            Word.wrap_wrap_add, counted_of_answers hyes, countedTwice_of_answers hyes,
            Nat.add_assoc, Nat.add_assoc]

end After

theorem sharedBytes_split (w : FilesAfter) (deLen : Nat) (extents : List ResultExtent) :
    sharedBytes w.fiemap deLen extents =
      sharedBytes w.fiemap deLen (w.counted extents) +
        sharedBytes w.fiemap deLen (w.uncounted extents) := by
  rw [sharedBytes, sharedBytes, sharedBytes, ← List.sum_append, ← List.map_append,
    FilesAfter.counted, FilesAfter.uncounted, List.takeWhile_append_dropWhile]

/-- Adding what was counted is adding the difference, as a congruence. -/
theorem wrap_add_eq_iff (total prev rest counted twice : Nat) :
    Word.wrap 64 (total + (counted + twice)) =
        Word.wrap 64 (total + (counted + rest - prev)) ↔
      prev ≤ counted + rest ∧ prev + twice ≡ rest [MOD 2 ^ 64] ∨
        counted + rest ≤ prev ∧ counted + twice ≡ 0 [MOD 2 ^ 64] := by
  have hsum : Word.wrap 64 (total + (counted + twice)) =
        Word.wrap 64 (total + (counted + rest - prev)) ↔
      counted + twice ≡ counted + rest - prev [MOD 2 ^ 64] :=
    ⟨fun h => Nat.ModEq.add_left_cancel' total h, fun h => Nat.ModEq.add_left total h⟩
  rw [hsum]
  unfold Nat.ModEq
  omega

/-- What a pass that returns adds: the sum behind the dedupe, with nothing subtracted. -/
theorem dedupeGroupGain_returned {w : DedupeWorld} {files : FilesAfter} {res : ResultsTree}
    {p : Nat × DigestBytes} {g dext : DupeExtents}
    {fsBlocksize kernBytes fiemapBytes fiemapBytes' : Nat} (hres : ResultsTree.Reachable res)
    (hg : res.root[p]? = some g) (hlen : g.deLen < 2 ^ 64)
    (hoff : ∀ e ∈ g.deExtents, e.eLoff < 2 ^ 64) (hbytes : fiemapBytes < 2 ^ 64)
    (hrun : dedupeGroupGain w files res p fsBlocksize kernBytes fiemapBytes =
      .returned fiemapBytes' dext) :
    fiemapBytes' = Word.wrap 64 (fiemapBytes +
      (sharedBytes files.fiemap dext.deLen (files.counted dext.deExtents) +
        files.countedTwice dext.deLen dext.deExtents 0)) := by
  unfold dedupeGroupGain at hrun
  cases hpass : dedupeGroup w res p fsBlocksize kernBytes with
  | cleaned res' =>
    rw [hpass] at hrun
    cases hrun
  | broken =>
    rw [hpass] at hrun
    cases hrun
  | ran exit d res' =>
    obtain ⟨hclean, dext', hdext, -⟩ := dedupeGroup_ran.1 hpass
    have hend := cleanDeduped_spec hg (hres.consistent.nonempty p g hg)
    rw [hclean] at hend
    cases hend with
    | returned hremains _ _ =>
      cases hdext.symm.trans hremains.here
      have hsame : dext'.deLen = g.deLen := by
        have hkey := (res'.keyed p dext' hdext).trans (res.keyed p g hg).symm
        exact congrArg Prod.fst hkey
      have hprev : addSharedExtents dext' 0 = 0 :=
        addSharedExtents_eq_zero fun e he => hres.uncounted p g hg e (hremains.sublist.subset he)
      simp only [hpass, hdext, hprev] at hrun
      split at hrun
      · cases hrun
      · split at hrun
        · cases hrun
        next sharedPost hwalk =>
          have hpost := addSharedExtentsPost_eq (hsame ▸ hlen) _
            (fun e he => hoff e (hremains.sublist.subset he)) 0 (Nat.two_pow_pos 64) hwalk
          rw [Nat.zero_add] at hpost
          split at hrun
          · cases hrun
            rw [Word.sub_of_le (Nat.zero_le _), Nat.sub_zero, hpost, Nat.add_comm,
              Word.wrap_wrap_add, Nat.add_comm]
          next hzero =>
            cases hrun
            have hnone := Nat.eq_zero_of_not_pos hzero
            rw [Nat.add_comm, ← Word.wrap_wrap_add, ← hpost, hnone, Nat.zero_add,
              Word.wrap_of_lt hbytes]

/-- The reported gain is the difference in shared bytes if and only if the bytes that were
    shared before make up for those that are not counted, or nothing is counted and nothing
    was gained. -/
theorem dedupeGroupGain_difference_iff {w : DedupeWorld} {files : FilesAfter}
    {before : FileId → Fiemap} {res : ResultsTree} {p : Nat × DigestBytes} {g dext : DupeExtents}
    {fsBlocksize kernBytes fiemapBytes fiemapBytes' : Nat} (hres : ResultsTree.Reachable res)
    (hg : res.root[p]? = some g) (hlen : g.deLen < 2 ^ 64)
    (hoff : ∀ e ∈ g.deExtents, e.eLoff < 2 ^ 64) (hbytes : fiemapBytes < 2 ^ 64)
    (hrun : dedupeGroupGain w files res p fsBlocksize kernBytes fiemapBytes =
      .returned fiemapBytes' dext) :
    ReportsDifference before files.fiemap dext fiemapBytes fiemapBytes' ↔
      files.Balances before dext := by
  rw [dedupeGroupGain_returned hres hg hlen hoff hbytes hrun, ReportsDifference,
    FilesAfter.Balances, sharedBytes_split files dext.deLen dext.deExtents]
  exact wrap_add_eq_iff ..

/-- When every file answers, the report is right only without shared bytes before the dedupe
    or without any after it. -/
theorem balances_of_answers {files : FilesAfter} {before : FileId → Fiemap} {dext : DupeExtents}
    (hall : ∀ e ∈ dext.deExtents, files.answers e = true)
    (hprev : sharedBytes before dext.deLen dext.deExtents < 2 ^ 64)
    (hpost : sharedBytes files.fiemap dext.deLen dext.deExtents < 2 ^ 64) :
    files.Balances before dext ↔ sharedBytes before dext.deLen dext.deExtents = 0 ∨
      sharedBytes files.fiemap dext.deLen dext.deExtents = 0 := by
  have hcounted : files.counted dext.deExtents = dext.deExtents :=
    List.takeWhile_eq_self_iff.2 hall
  have huncounted : files.uncounted dext.deExtents = [] := List.dropWhile_eq_nil_iff.2 hall
  have htwice : files.countedTwice dext.deLen dext.deExtents 0 = 0 := by
    rw [FilesAfter.countedTwice, huncounted]
  have hnone : sharedBytes files.fiemap dext.deLen [] = 0 := rfl
  rw [FilesAfter.Balances, hcounted, huncounted, htwice, hnone]
  unfold Nat.ModEq
  omega

-- ---------------------------------------------------------------------------
-- A pass that changes nothing
-- ---------------------------------------------------------------------------

/-- A page at some physical offset. -/
def onePage (physical : Nat) (flags : FiemapFlags) : Fiemap where
  fmExtents := [⟨0, physical, 4096, flags⟩]
  positive := by simp
  fits := by simp [FiemapExtent.feEnd]
  sorted := List.pairwise_singleton _ _

/-- Each file has its page for itself, or shares it with a file outside of the group. -/
def pagesApart (flags : FiemapFlags) (file : FileId) : Fiemap := onePage (8192 + 8192 * file) flags

/-- All files share one page. -/
def pagesTogether (_ : FileId) : Fiemap := onePage 8192 fiemapExtentShared

/-- A kernel that finds different data, and dedupes nothing. -/
def differsWorld : DedupeWorld where
  opens := fun _ => none
  reopens := fun _ _ => none
  kernel := fun _ => ⟨0, fun _ => ⟨0, 1⟩, 4096⟩
  fuel := 100

/-- All files open, and their extents can be mapped. -/
def answeringFiles (fiemap : FileId → Fiemap) : FilesAfter := ⟨fun _ => none, fun _ => true, fiemap⟩

theorem reachable_pagesAt (poffs : List Nat) : ResultsTree.Reachable (pagesAt poffs) := by
  have hfold : ∀ (pages : List (Nat × Nat)) (res : ResultsTree), ResultsTree.Reachable res →
      ∃ res', pages.foldlM (fun res (poff, file) => ResultsTree.insertOneResult res pageKey.2
          ⟨file, "page", file + 1, 4096⟩ 0 pageKey.1 poff) res = some res' ∧
        ResultsTree.Reachable res' := by
    intro pages
    induction pages with
    | nil => exact fun res hres => ⟨res, rfl, hres⟩
    | cons page pages ih =>
      intro res hres
      obtain ⟨poff, file⟩ := page
      obtain ⟨res₁, hinsert, -⟩ := hres.consistent.insertOneResult pageKey.2
        ⟨file, "page", file + 1, 4096⟩ 0 pageKey.1 poff
      obtain ⟨res', hrest, hres'⟩ := ih res₁
        (.step (.insertOneResult pageKey.2 _ 0 pageKey.1 poff) hres trivial hinsert)
      refine ⟨res', ?_, hres'⟩
      rw [List.foldlM_cons]
      simp only [hinsert]
      exact hrest
  obtain ⟨res', hrun, hres'⟩ := hfold poffs.zipIdx .empty .init
  have heq : pagesAt poffs = res' := congrArg (fun tree => tree.getD ResultsTree.empty) hrun
  rw [heq]
  exact hres'

/-- Two pages that are not shared before the dedupe. -/
theorem dedupeGroupGain_difference_iff_pages :
    ∃ dext, dedupeGroupGain pageWorld (answeringFiles pagesTogether) (pagesAt [8192, 16384])
        pageKey 0 0 0 = .returned 8192 dext ∧
      (ReportsDifference (pagesApart 0) pagesTogether dext 0 8192 ↔
        (answeringFiles pagesTogether).Balances (pagesApart 0) dext) := by
  have hbytes : (dedupeGroupGain pageWorld (answeringFiles pagesTogether)
      (pagesAt [8192, 16384]) pageKey 0 0 0).bytes = some 8192 := by decide +kernel
  have hgroup : (pagesAt [8192, 16384]).root[pageKey]?.map (fun g =>
      decide (g.deLen < 2 ^ 64 ∧ ∀ e ∈ g.deExtents, e.eLoff < 2 ^ 64)) = some true := by
    decide +kernel
  obtain ⟨dext, hrun⟩ := GainExit.bytes_eq_some.1 hbytes
  obtain ⟨g, hg, hsane⟩ := Option.map_eq_some_iff.1 hgroup
  obtain ⟨hlen, hoff⟩ := of_decide_eq_true hsane
  exact ⟨dext, hrun, @dedupeGroupGain_difference_iff pageWorld (answeringFiles pagesTogether)
    (pagesApart 0) _ pageKey g dext 0 0 0 8192 (reachable_pagesAt _) hg hlen hoff
    (Nat.two_pow_pos 64) hrun⟩

/-- Two pages that other files share, and a kernel that changes nothing: both pages are
    reported as gained. -/
theorem not_reportsDifference_unchanged :
    ResultsTree.Reachable (pagesAt [8192, 16384]) ∧
      ∃ dext, dedupeGroupGain differsWorld (answeringFiles (pagesApart fiemapExtentShared))
          (pagesAt [8192, 16384]) pageKey 0 0 0 = .returned 8192 dext ∧
        ¬ ReportsDifference (pagesApart fiemapExtentShared) (pagesApart fiemapExtentShared) dext
          0 8192 := by
  have hbytes : (dedupeGroupGain differsWorld (answeringFiles (pagesApart fiemapExtentShared))
      (pagesAt [8192, 16384]) pageKey 0 0 0).bytes = some 8192 := by decide +kernel
  obtain ⟨dext, hrun⟩ := GainExit.bytes_eq_some.1 hbytes
  refine ⟨reachable_pagesAt _, dext, hrun, fun hreports => ?_⟩
  rw [ReportsDifference, Nat.sub_self] at hreports
  revert hreports
  decide

end Duperemove
