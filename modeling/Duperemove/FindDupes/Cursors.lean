-- SUMMARY: `compare_extents` with its cursors, its `goto` and its checksums: it always returns, and it aborts nowhere.
import Duperemove.FindDupes.Soundness

/-!
# The cursors of `compare_extents`

The two cursors are pointers into block trees, which may be the same tree. The code
tests them with `end_of_block_list` in some places and moves them with
`get_next_block` in others, and a `goto` leads back to its start. Here each step is
one pass of a loop or one stretch between them, and whatever the code aborts on is an
exit of its own. The walk over the pairs that lie ahead, as `compareExtents` has it,
is what these steps do.
-/

namespace Duperemove

-- ---------------------------------------------------------------------------
-- Pointers to blocks
-- ---------------------------------------------------------------------------

/-- A pointer to a block in the tree of a file. -/
structure BlockPtr where
  bFile : BlockFile
  index : Fin bFile.blocks.length

namespace BlockPtr

def get (b : BlockPtr) : FileBlock := b.bFile.blocks[b.index]

/-- `rb_next` -/
def rbNext (b : BlockPtr) : Option BlockPtr :=
  if h : b.index.val + 1 < b.bFile.blocks.length then some ⟨b.bFile, ⟨b.index.val + 1, h⟩⟩
  else none

def endOfBlockList (b : BlockPtr) : Bool := b.rbNext.isNone

/-- `get_next_block`; `none` is its abort. -/
def getNextBlock (b : BlockPtr) : Option BlockPtr := b.rbNext

end BlockPtr

-- ---------------------------------------------------------------------------
-- Checksums in memory
-- ---------------------------------------------------------------------------

/-- A running checksum, and how many times it was finished. -/
structure CsumCell where
  csum : RunningChecksum
  finished : Nat
  deriving DecidableEq, Repr

/-- `add_to_running_checksum` on the `n`-th checksum; `none` when it is not there any
    more. -/
def addToCell (csums : List CsumCell) (n : Nat) (buf : List Byte) : Option (List CsumCell) :=
  match csums[n]? with
  | none => none
  | some c =>
    if c.finished = 0 then some (csums.set n ⟨addToRunningChecksum c.csum buf, 0⟩) else none

/-- `finish_running_checksum` on the `n`-th checksum, which frees it. -/
def finishCell (h : Xxh (List Byte)) (csums : List CsumCell) (n : Nat) :
    Option (List CsumCell × List Byte) :=
  match csums[n]? with
  | none => none
  | some c =>
    if c.finished = 0 then
      some (csums.set n ⟨c.csum, c.finished + 1⟩, finishRunningChecksum h c.csum)
    else none

-- ---------------------------------------------------------------------------
-- The function
-- ---------------------------------------------------------------------------

/-- Why the function aborts: `get_next_block` at the last block, a file check of
    `record_match`, or a checksum that was used after it was freed. -/
inductive CompareAbort where
  | lastBlock
  | otherFile
  | freedChecksum
  deriving DecidableEq, Repr

inductive CompareExit where
  | returned (csums : List CsumCell) (recorded : List BlockMatch)
  | aborted (reason : CompareAbort)

/-- Where the function is: at the label `next_match`, in front of a pass of the first or
    of the second loop, or behind them. `start` is set at the label. -/
inductive ComparePc where
  | nextMatch
  | skip (start : BlockPtr × BlockPtr)
  | extend (start : BlockPtr × BlockPtr) (csum : Nat)
  | finish (start : BlockPtr × BlockPtr) (csum : Nat)

structure CompareFrame where
  pc : ComparePc
  orig : BlockPtr
  block : BlockPtr
  stop : Option (BlockPtr × BlockPtr)
  matchmore : Bool
  csums : List CsumCell
  recorded : List BlockMatch

namespace CompareFrame

variable (h : Xxh (List Byte)) (job : CompareJob) (s : CompareFrame)

/-- A pass of the first loop, or the start of the checksum behind it. -/
def stepSkip (start : BlockPtr × BlockPtr) : Loop.Next CompareFrame CompareExit :=
  if isMismatch job (s.orig.get, s.block.get) then
    if s.orig.endOfBlockList || s.block.endOfBlockList then .leave (.returned s.csums s.recorded)
    else
      match s.orig.getNextBlock, s.block.getNextBlock with
      | some orig, some block => .again { s with orig := orig, block := block }
      | _, _ => .leave (.aborted .lastBlock)
  else
    .again { s with
      pc := .extend start s.csums.length
      csums := s.csums ++ [⟨startRunningChecksum, 0⟩] }

/-- A pass of the second loop. -/
def stepExtend (start : BlockPtr × BlockPtr) (csum : Nat) :
    Loop.Next CompareFrame CompareExit :=
  if isMatch job (s.orig.get, s.block.get) then
    match addToCell s.csums csum s.block.get.digest with
    | none => .leave (.aborted .freedChecksum)
    | some csums =>
      let s' := { s with stop := some (s.orig, s.block), csums := csums }
      if s.orig.endOfBlockList || s.block.endOfBlockList then
        .again { s' with pc := .finish start csum, matchmore := false }
      else
        match s.orig.getNextBlock, s.block.getNextBlock with
        | some orig, some block =>
          if isContiguous job (s.orig.get, s.block.get) (orig.get, block.get) then
            .again { s' with orig := orig, block := block }
          else
            .again { s' with
              pc := .finish start csum, orig := orig, block := block, matchmore := false }
        | _, _ => .leave (.aborted .lastBlock)
  else .again { s with pc := .finish start csum }

/-- `record_match`; `none` when a file check fails. -/
def recordMatch (digest : List Byte) (start stop : BlockPtr × BlockPtr) : Option BlockMatch :=
  if start.1.bFile.file ≠ job.orig.file ∨ start.2.bFile.file ≠ job.walk.file then none
  else some {
    digest := digest
    soff := (start.1.get.bLoff, start.2.get.bLoff)
    eoff := (blockEnd job.blocksize stop.1.bFile.size stop.1.get,
      blockEnd job.blocksize stop.2.bFile.size stop.2.get) }

/-- From the end of the second loop to the label or to a return. -/
def stepFinish (start : BlockPtr × BlockPtr) (csum : Nat) :
    Loop.Next CompareFrame CompareExit :=
  match finishCell h s.csums csum with
  | none => .leave (.aborted .freedChecksum)
  | some (csums, digest) =>
    match s.stop with
    | none => .leave (.returned csums s.recorded)
    | some stop =>
      if blockEnd job.blocksize stop.2.bFile.size stop.2.get ≤ job.extentEnd then
        match recordMatch job digest start stop with
        | none => .leave (.aborted .otherFile)
        | some m =>
          let recorded := s.recorded ++ [m]
          if s.matchmore then
            if stop.1.endOfBlockList || stop.2.endOfBlockList then
              .leave (.returned csums recorded)
            else if s.block.get.bLoff > job.extentEnd then .leave (.returned csums recorded)
            else
              match stop.1.getNextBlock, stop.2.getNextBlock with
              | some orig, some block =>
                .again ⟨.nextMatch, orig, block, none, s.matchmore, csums, recorded⟩
              | _, _ => .leave (.aborted .lastBlock)
          else .leave (.returned csums recorded)
      else .leave (.returned csums s.recorded)

def step : Loop.Next CompareFrame CompareExit :=
  match s.pc with
  | .nextMatch => .again { s with pc := .skip (s.orig, s.block) }
  | .skip start => s.stepSkip job start
  | .extend start csum => s.stepExtend job start csum
  | .finish start csum => s.stepFinish h job start csum

/-- The state at the start of a call. -/
def init (orig block : BlockPtr) : CompareFrame := ⟨.nextMatch, orig, block, none, true, [], []⟩

end CompareFrame

-- ---------------------------------------------------------------------------
-- Pointers and the pairs ahead
-- ---------------------------------------------------------------------------

/-- The blocks of two cursors. -/
def blocksAt (c : BlockPtr × BlockPtr) : BlockPair := (c.1.get, c.2.get)

/-- The pairs from two cursors on. -/
def pairsAhead (c : BlockPtr × BlockPtr) : List BlockPair :=
  lockstep c.1.bFile c.2.bFile c.1.index c.2.index

/-- The cursors are in the trees of the two files of the call. -/
def InFiles (job : CompareJob) (c : BlockPtr × BlockPtr) : Prop :=
  c.1.bFile = job.orig ∧ c.2.bFile = job.walk

section Pointers

variable {c : BlockPtr × BlockPtr} {a b : BlockPtr}

theorem BlockPtr.drop_index (b : BlockPtr) :
    b.bFile.blocks.drop b.index = b.get :: b.bFile.blocks.drop (b.index.val + 1) :=
  List.drop_eq_getElem_cons b.index.isLt

/-- At the last block nothing is behind it. -/
theorem BlockPtr.drop_of_end (hend : b.endOfBlockList = true) :
    b.bFile.blocks.drop (b.index.val + 1) = [] := by
  simp only [endOfBlockList, rbNext] at hend
  split at hend
  · cases hend
  · rename_i hlast
    exact List.drop_eq_nil_of_le (Nat.le_of_not_lt hlast)

/-- Anywhere else `get_next_block` gets the block behind it, in the same file. -/
theorem BlockPtr.getNextBlock_of_not_end (hend : b.endOfBlockList = false) :
    ∃ b', b.getNextBlock = some b' ∧ b'.bFile = b.bFile ∧
      b'.bFile.blocks.drop b'.index = b.bFile.blocks.drop (b.index.val + 1) := by
  simp only [endOfBlockList, rbNext] at hend
  split at hend
  · rename_i hlt
    exact ⟨⟨b.bFile, ⟨b.index.val + 1, hlt⟩⟩, dif_pos hlt, rfl, rfl⟩
  · cases hend

/-- One pair is left when a cursor is at its last block. -/
theorem pairsAhead_of_end (hend : (c.1.endOfBlockList || c.2.endOfBlockList) = true) :
    pairsAhead c = [blocksAt c] := by
  rw [pairsAhead, lockstep, c.1.drop_index, c.2.drop_index, List.zip_cons_cons]
  rcases (Bool.or_eq_true _ _).mp hend with h | h
  · rw [BlockPtr.drop_of_end h, List.zip_nil_left]
    rfl
  · rw [BlockPtr.drop_of_end h, List.zip_nil_right]
    rfl

/-- Otherwise both cursors move on together. -/
theorem pairsAhead_of_not_end (hend : (c.1.endOfBlockList || c.2.endOfBlockList) = false) :
    ∃ c' : BlockPtr × BlockPtr, c.1.getNextBlock = some c'.1 ∧ c.2.getNextBlock = some c'.2 ∧
      pairsAhead c = blocksAt c :: pairsAhead c' ∧
      (∀ job, InFiles job c → InFiles job c') := by
  obtain ⟨h₁, h₂⟩ := (Bool.or_eq_false_iff).mp hend
  obtain ⟨a, ha, hafile, hadrop⟩ := BlockPtr.getNextBlock_of_not_end h₁
  obtain ⟨b, hb, hbfile, hbdrop⟩ := BlockPtr.getNextBlock_of_not_end h₂
  refine ⟨(a, b), ha, hb, ?_, fun job hin => ⟨hafile.trans hin.1, hbfile.trans hin.2⟩⟩
  rw [pairsAhead, lockstep, c.1.drop_index, c.2.drop_index, List.zip_cons_cons, pairsAhead,
    lockstep, hadrop, hbdrop]
  rfl

theorem pairsAhead_cons (c : BlockPtr × BlockPtr) :
    ∃ ps, pairsAhead c = blocksAt c :: ps := by
  cases hend : c.1.endOfBlockList || c.2.endOfBlockList with
  | true => exact ⟨_, pairsAhead_of_end hend⟩
  | false =>
    obtain ⟨c', -, -, hps, -⟩ := pairsAhead_of_not_end hend
    exact ⟨_, hps⟩

end Pointers

-- ---------------------------------------------------------------------------
-- The checksum of a round
-- ---------------------------------------------------------------------------

section Cells

variable (done : List CsumCell) (csum : RunningChecksum)

/-- The checksum that was started last is there. -/
theorem addToCell_last (buf : List Byte) :
    addToCell (done ++ [⟨csum, 0⟩]) done.length buf =
      some (done ++ [⟨addToRunningChecksum csum buf, 0⟩]) := by
  simp [addToCell]

theorem finishCell_last (h : Xxh (List Byte)) :
    finishCell h (done ++ [⟨csum, 0⟩]) done.length =
      some (done ++ [⟨csum, 1⟩], finishRunningChecksum h csum) := by
  simp [finishCell]

end Cells

-- ---------------------------------------------------------------------------
-- The loops
-- ---------------------------------------------------------------------------

namespace CompareFrame

variable {h : Xxh (List Byte)} {job : CompareJob} {start c : BlockPtr × BlockPtr}
variable {stop : Option (BlockPtr × BlockPtr)} {matchmore : Bool} {csums : List CsumCell}
variable {recorded ms : List BlockMatch}

/-- The steps from a state end, the function returns, it recorded `ms`, and every checksum
    that it started was finished once. -/
def Finishes (h : Xxh (List Byte)) (job : CompareJob) (s : CompareFrame) (ms : List BlockMatch) :
    Prop :=
  ∃ csums, Loop.Ends (step h job) s (.returned csums ms) ∧ ∀ x ∈ csums, x.finished = 1

theorem Finishes.again {s s' : CompareFrame} (hstep : step h job s = .again s')
    (hrest : Finishes h job s' ms) : Finishes h job s ms := by
  obtain ⟨csums, hends, hdone⟩ := hrest
  exact ⟨csums, hends.again hstep, hdone⟩

theorem Finishes.leave {s : CompareFrame} (hstep : step h job s = .leave (.returned csums ms))
    (hdone : ∀ x ∈ csums, x.finished = 1) : Finishes h job s ms :=
  ⟨csums, .leave hstep, hdone⟩

/-- The list from the last matching pair on. -/
def stopAhead (stop : Option (BlockPtr × BlockPtr)) : List BlockPair :=
  match stop with
  | none => []
  | some stop => pairsAhead stop

/-- The first loop ends with what `skipMismatches` finds. -/
theorem finishes_skip (hin : InFiles job c) (hdone : ∀ x ∈ csums, x.finished = 1)
    (hnone : skipMismatches job (pairsAhead c) = none → ms = recorded)
    (hsome : ∀ ps, skipMismatches job (pairsAhead c) = some ps →
      ∀ c' : BlockPtr × BlockPtr, InFiles job c' → pairsAhead c' = ps →
        Finishes h job ⟨.extend start csums.length, c'.1, c'.2, stop, matchmore,
          csums ++ [⟨startRunningChecksum, 0⟩], recorded⟩ ms) :
    Finishes h job ⟨.skip start, c.1, c.2, stop, matchmore, csums, recorded⟩ ms := by
  generalize hlen : (pairsAhead c).length = n
  induction n generalizing c with
  | zero =>
    obtain ⟨ps, hps⟩ := pairsAhead_cons c
    rw [hps] at hlen
    cases hlen
  | succ n ih =>
    cases hmismatch : isMismatch job (blocksAt c) with
    | false =>
      have hstep : step h job ⟨.skip start, c.1, c.2, stop, matchmore, csums, recorded⟩ =
          .again ⟨.extend start csums.length, c.1, c.2, stop, matchmore,
            csums ++ [⟨startRunningChecksum, 0⟩], recorded⟩ := by
        simp only [step, stepSkip]
        rw [← blocksAt, if_neg (by rw [hmismatch]; decide)]
      refine .again hstep (hsome (pairsAhead c) ?_ c hin rfl)
      obtain ⟨ps, hps⟩ := pairsAhead_cons c
      rw [skipMismatches_eq, hps, List.dropWhile_cons_of_neg (by rw [hmismatch]; decide),
        if_neg (List.cons_ne_nil _ _)]
    | true =>
      cases hend : c.1.endOfBlockList || c.2.endOfBlockList with
      | true =>
        have hstep : step h job ⟨.skip start, c.1, c.2, stop, matchmore, csums, recorded⟩ =
            .leave (.returned csums recorded) := by
          simp only [step, stepSkip]
          rw [← blocksAt, if_pos hmismatch, if_pos hend]
        have hskip : skipMismatches job (pairsAhead c) = none := by
          rw [pairsAhead_of_end hend, skipMismatches, if_pos hmismatch]
        rw [hnone hskip]
        exact .leave hstep hdone
      | false =>
        obtain ⟨c', h₁, h₂, hps, hin'⟩ := pairsAhead_of_not_end hend
        have hstep : step h job ⟨.skip start, c.1, c.2, stop, matchmore, csums, recorded⟩ =
            .again ⟨.skip start, c'.1, c'.2, stop, matchmore, csums, recorded⟩ := by
          simp only [step, stepSkip]
          rw [← blocksAt, if_pos hmismatch, if_neg (by rw [hend]; decide), h₁, h₂]
        have hskip : skipMismatches job (pairsAhead c) = skipMismatches job (pairsAhead c') := by
          rw [skipMismatches_eq, skipMismatches_eq, hps, List.dropWhile_cons_of_pos hmismatch]
        rw [hskip] at hnone hsome
        rw [hps, List.length_cons] at hlen
        exact .again hstep (ih (hin' job hin) hnone hsome (Nat.succ.inj hlen))

/-! ## The passes of the second loop -/

section Extend

variable {done : List CsumCell} {csum : RunningChecksum}
variable {p q : BlockPair} {ps tail : List BlockPair}

/-- A pair that does not match ends the loop where it stands. -/
theorem step_extend_of_not_match (hmatch : isMatch job (blocksAt c) = false) :
    step h job ⟨.extend start done.length, c.1, c.2, stop, matchmore,
      done ++ [⟨csum, 0⟩], recorded⟩ =
    .again ⟨.finish start done.length, c.1, c.2, stop, matchmore,
      done ++ [⟨csum, 0⟩], recorded⟩ := by
  simp only [step, stepExtend]
  rw [← blocksAt, if_neg (by rw [hmatch]; decide)]

/-- A pair that matches at the end of a tree is the last one. -/
theorem step_extend_of_end (hmatch : isMatch job (blocksAt c) = true)
    (hend : (c.1.endOfBlockList || c.2.endOfBlockList) = true) :
    step h job ⟨.extend start done.length, c.1, c.2, stop, matchmore,
      done ++ [⟨csum, 0⟩], recorded⟩ =
    .again ⟨.finish start done.length, c.1, c.2, some c, false,
      done ++ [⟨addToRunningChecksum csum c.2.get.digest, 0⟩], recorded⟩ := by
  have hcell := addToCell_last done csum c.2.get.digest
  simp only [step, stepExtend]
  rw [← blocksAt, if_pos hmatch, hcell]
  simp only
  rw [if_pos hend]

/-- Behind any other pair that matches the cursors move on, and the loop goes on where the
    next pair is contiguous. -/
theorem step_extend_of_match (hmatch : isMatch job (blocksAt c) = true)
    (hend : (c.1.endOfBlockList || c.2.endOfBlockList) = false) {c' : BlockPtr × BlockPtr}
    (h₁ : c.1.getNextBlock = some c'.1) (h₂ : c.2.getNextBlock = some c'.2) :
    step h job ⟨.extend start done.length, c.1, c.2, stop, matchmore,
      done ++ [⟨csum, 0⟩], recorded⟩ =
    .again (if isContiguous job (blocksAt c) (blocksAt c') then
      ⟨.extend start done.length, c'.1, c'.2, some c, matchmore,
        done ++ [⟨addToRunningChecksum csum c.2.get.digest, 0⟩], recorded⟩
    else
      ⟨.finish start done.length, c'.1, c'.2, some c, false,
        done ++ [⟨addToRunningChecksum csum c.2.get.digest, 0⟩], recorded⟩) := by
  have hcell := addToCell_last done csum c.2.get.digest
  simp only [step, stepExtend]
  rw [← blocksAt, if_pos hmatch, hcell]
  simp only
  rw [if_neg (by rw [hend]; decide), h₁, h₂]
  simp only
  rw [← blocksAt]
  split <;> rfl

theorem extendMatch_of_not_match (hmatch : isMatch job p = false) :
    extendMatch job csum ps (p :: tail) = ⟨csum, ps, p :: tail, true⟩ := by
  cases tail with
  | nil => rw [extendMatch, if_neg (by rw [hmatch]; decide)]
  | cons q tail => rw [extendMatch, if_neg (by rw [hmatch]; decide)]

theorem extendMatch_of_match (hmatch : isMatch job p = true) :
    extendMatch job csum ps (p :: q :: tail) =
      if isContiguous job p q then
        extendMatch job (addToRunningChecksum csum p.2.digest) (p :: q :: tail) (q :: tail)
      else ⟨addToRunningChecksum csum p.2.digest, p :: q :: tail, q :: tail, false⟩ := by
  rw [extendMatch, if_pos hmatch]

/-- The second loop ends with what `extendMatch` finds. -/
theorem finishes_extend (hin : InFiles job c) (hstop : ∀ e ∈ stop, InFiles job e)
    (hr : ∀ (c' : BlockPtr × BlockPtr) (stop' : Option (BlockPtr × BlockPtr)) (m : MatchLoop),
      extendMatch job csum (stopAhead stop) (pairsAhead c) = m → InFiles job c' →
      (∀ e ∈ stop', InFiles job e) → pairsAhead c' = m.pairs → stopAhead stop' = m.stop →
        Finishes h job ⟨.finish start done.length, c'.1, c'.2, stop', m.matchmore,
          done ++ [⟨m.csum, 0⟩], recorded⟩ ms) :
    Finishes h job ⟨.extend start done.length, c.1, c.2, stop, true,
      done ++ [⟨csum, 0⟩], recorded⟩ ms := by
  generalize hlen : (pairsAhead c).length = n
  induction n generalizing c stop csum with
  | zero =>
    obtain ⟨ps, hps⟩ := pairsAhead_cons c
    rw [hps] at hlen
    cases hlen
  | succ n ih =>
    have hstop' : ∀ e ∈ some c, InFiles job e := by
      rintro e ⟨⟩
      exact hin
    cases hmatch : isMatch job (blocksAt c) with
    | false =>
      refine .again (step_extend_of_not_match hmatch)
        (hr c stop ⟨csum, stopAhead stop, pairsAhead c, true⟩ ?_ hin hstop rfl rfl)
      obtain ⟨ps, hps⟩ := pairsAhead_cons c
      rw [hps, extendMatch_of_not_match hmatch]
    | true =>
      cases hend : c.1.endOfBlockList || c.2.endOfBlockList with
      | true =>
        refine .again (step_extend_of_end hmatch hend)
          (hr c (some c) ⟨addToRunningChecksum csum c.2.get.digest, [blocksAt c], [blocksAt c],
            false⟩ ?_ hin hstop' (pairsAhead_of_end hend) (pairsAhead_of_end hend))
        rw [pairsAhead_of_end hend, extendMatch, if_pos hmatch]
        rfl
      | false =>
        obtain ⟨c', h₁, h₂, hps, hin'⟩ := pairsAhead_of_not_end hend
        obtain ⟨ps, hps'⟩ := pairsAhead_cons c'
        have hmore : extendMatch job csum (stopAhead stop) (pairsAhead c) =
            if isContiguous job (blocksAt c) (blocksAt c') then
              extendMatch job (addToRunningChecksum csum c.2.get.digest) (pairsAhead c)
                (pairsAhead c')
            else
              ⟨addToRunningChecksum csum c.2.get.digest, pairsAhead c, pairsAhead c', false⟩ := by
          rw [hps, hps', extendMatch_of_match hmatch]
          rfl
        refine .again (step_extend_of_match hmatch hend h₁ h₂) ?_
        by_cases hc : isContiguous job (blocksAt c) (blocksAt c') = true
        · rw [hmore, if_pos hc] at hr
          rw [hps, List.length_cons] at hlen
          rw [if_pos hc]
          exact ih (hin' job hin) hstop' hr (Nat.succ.inj hlen)
        · rw [if_neg hc]
          exact hr c' (some c) ⟨addToRunningChecksum csum c.2.get.digest, pairsAhead c,
            pairsAhead c', false⟩ (by rw [hmore, if_neg hc]) (hin' job hin) hstop' rfl rfl

end Extend

/-- The file checks of `record_match` hold for cursors in the trees of the files. -/
theorem recordMatch_eq (digest : List Byte) {e : BlockPtr × BlockPtr}
    (hstart : InFiles job start) (he : InFiles job e) : recordMatch job digest start e =
      some (Duperemove.recordMatch job digest (blocksAt start) (blocksAt e)) := by
  rw [recordMatch, if_neg (by simp [hstart.1, hstart.2]), he.1, he.2]
  rfl

variable (h job) in
/-- What a round does behind its two loops. -/
def roundEnd (start : BlockPair) (recorded : List BlockMatch) (m : MatchLoop) :
    Loop.Next CompareState (List BlockMatch) :=
  match m.stop with
  | [] => .leave recorded
  | stop :: rest =>
    if blockEnd job.blocksize job.walk.size stop.2 ≤ job.extentEnd then
      let recorded := recorded ++
        [Duperemove.recordMatch job (finishRunningChecksum h m.csum) start stop]
      if m.matchmore then
        match rest, m.pairs with
        | [], _ => .leave recorded
        | _ :: _, [] => .leave recorded
        | _ :: _, cur :: _ =>
          if cur.2.bLoff > job.extentEnd then .leave recorded else .again ⟨rest, recorded⟩
      else .leave recorded
    else .leave recorded

variable (h job recorded) in
theorem compareRound_eq {start : BlockPair} {ps : List BlockPair}
    (hps : pairsAhead c = start :: ps) :
    compareRound h job ⟨pairsAhead c, recorded⟩ =
      match skipMismatches job (pairsAhead c) with
      | none => .leave recorded
      | some ps => roundEnd h job start recorded (extendMatch job startRunningChecksum [] ps) := by
  simp only [compareRound, hps]
  cases skipMismatches job (start :: ps) with
  | none => rfl
  | some ps => rfl

/-- The code behind the loops does what the round does there. -/
theorem finishes_finish {m : MatchLoop} (hdone : ∀ x ∈ csums, x.finished = 1)
    (hstart : InFiles job start) (hstop : ∀ e ∈ stop, InFiles job e)
    (hstops : stopAhead stop = m.stop) (hc : pairsAhead c = m.pairs)
    (hleave : ∀ r, roundEnd h job (blocksAt start) recorded m = .leave r → ms = r)
    (hagain : ∀ s', roundEnd h job (blocksAt start) recorded m = .again s' →
      ∀ c' : BlockPtr × BlockPtr, InFiles job c' → pairsAhead c' = s'.pairs →
        Finishes h job ⟨.nextMatch, c'.1, c'.2, none, true, csums ++ [⟨m.csum, 1⟩], s'.recorded⟩
          ms) :
    Finishes h job ⟨.finish start csums.length, c.1, c.2, stop, m.matchmore,
      csums ++ [⟨m.csum, 0⟩], recorded⟩ ms := by
  have hcell := finishCell_last csums m.csum h
  have hdone' : ∀ x ∈ csums ++ [(⟨m.csum, 1⟩ : CsumCell)], x.finished = 1 := by
    intro x hx
    rcases List.mem_append.1 hx with hx | hx
    · exact hdone x hx
    · rw [List.mem_singleton.1 hx]
  cases stop with
  | none =>
    have hend : roundEnd h job (blocksAt start) recorded m = .leave recorded := by
      rw [roundEnd, ← hstops]
      rfl
    rw [hleave _ hend]
    refine .leave ?_ hdone'
    simp only [step, stepFinish, hcell]
  | some e =>
    have he := hstop e rfl
    obtain ⟨rest, hrest⟩ := pairsAhead_cons e
    obtain ⟨tail, htail⟩ := pairsAhead_cons c
    have hrecord := recordMatch_eq (finishRunningChecksum h m.csum) hstart he
    rw [stopAhead, hrest] at hstops
    rw [htail] at hc
    rw [roundEnd, ← hstops, ← hc] at hleave hagain
    simp only at hleave hagain
    by_cases hinside : blockEnd job.blocksize job.walk.size e.2.get ≤ job.extentEnd
    · rw [if_pos (by exact hinside)] at hleave hagain
      cases hmore : m.matchmore with
      | false =>
        rw [hmore, if_neg (by decide)] at hleave
        rw [hleave _ rfl]
        refine .leave ?_ hdone'
        simp only [step, stepFinish, hcell, he.2, if_pos hinside, hrecord]
        rw [if_neg (by decide)]
      | true =>
        rw [hmore, if_pos rfl] at hleave hagain
        cases hend : e.1.endOfBlockList || e.2.endOfBlockList with
        | true =>
          rw [pairsAhead_of_end hend, List.cons.injEq] at hrest
          obtain ⟨-, rfl⟩ := hrest
          rw [hleave _ rfl]
          refine .leave ?_ hdone'
          simp only [step, stepFinish, hcell, he.2, if_pos hinside, hrecord]
          rw [if_pos trivial, if_pos hend]
        | false =>
          obtain ⟨e', h₁, h₂, he', hin'⟩ := pairsAhead_of_not_end hend
          rw [he', List.cons.injEq] at hrest
          obtain ⟨-, rfl⟩ := hrest
          obtain ⟨ps, hps⟩ := pairsAhead_cons e'
          rw [hps] at hleave hagain
          simp only at hleave hagain
          by_cases hbehind : c.2.get.bLoff > job.extentEnd
          · rw [if_pos (by exact hbehind)] at hleave
            rw [hleave _ rfl]
            refine .leave ?_ hdone'
            simp only [step, stepFinish, hcell, he.2, if_pos hinside, hrecord]
            rw [if_pos trivial, if_neg (by rw [hend]; decide), if_pos hbehind]
          · rw [if_neg (by exact hbehind)] at hagain
            refine .again ?_ (hagain _ rfl e' (hin' job he) hps)
            simp only [step, stepFinish, hcell, he.2, if_pos hinside, hrecord]
            rw [if_pos trivial, if_neg (by rw [hend]; decide), if_neg hbehind, h₁, h₂]
    · rw [if_neg (by exact hinside)] at hleave
      rw [hleave _ rfl]
      refine .leave ?_ hdone'
      simp only [step, stepFinish, hcell, he.2, if_neg hinside]

/-- From the label on, the steps do what the rounds do. -/
theorem finishes_run (fuel : Nat) (hin : InFiles job c) (hdone : ∀ x ∈ csums, x.finished = 1)
    (hrun : Loop.run (compareRound h job) fuel ⟨pairsAhead c, recorded⟩ = some ms) :
    Finishes h job ⟨.nextMatch, c.1, c.2, none, true, csums, recorded⟩ ms := by
  induction fuel generalizing c csums recorded with
  | zero => cases hrun
  | succ fuel ih =>
    obtain ⟨ps, hps⟩ := pairsAhead_cons c
    have hround := compareRound_eq h job recorded hps
    have hlabel : step h job ⟨.nextMatch, c.1, c.2, none, true, csums, recorded⟩ =
        .again ⟨.skip c, c.1, c.2, none, true, csums, recorded⟩ := rfl
    refine .again hlabel ?_
    refine finishes_skip hin hdone (fun hnone => ?_) (fun ps' hsome c' hin' hps' => ?_)
    · rw [hnone] at hround
      rw [Loop.run_leave hround] at hrun
      cases hrun
      rfl
    · rw [hsome] at hround
      refine finishes_extend hin' (fun e he => by cases he)
        fun c'' stop m hm _ hstop hc hstops => ?_
      rw [hps', stopAhead] at hm
      simp only [hm] at hround
      refine finishes_finish hdone hin hstop hstops hc (fun r hr => ?_) fun s' hs' d hind hd => ?_
      · rw [Loop.run_leave (hround.trans hr)] at hrun
        cases hrun
        rfl
      · rw [Loop.run_again (hround.trans hs')] at hrun
        refine ih hind (fun x hx => ?_) (hd ▸ hrun)
        rcases List.mem_append.1 hx with hx | hx
        · exact hdone x hx
        · rw [List.mem_singleton.1 hx]

end CompareFrame

-- ---------------------------------------------------------------------------
-- The call
-- ---------------------------------------------------------------------------

/-- The matches end in the searched area. -/
def EndInArea (job : CompareJob) (ms : List BlockMatch) : Prop :=
  ∀ m ∈ ms, m.eoff.2 ≤ job.extentEnd

theorem EndInArea.record {h : Xxh (List Byte)} {job : CompareJob} {ms : List BlockMatch}
    {ps run : List BlockPair} {e : BlockPair} (hms : EndInArea job ms) (hf : Finds job ps run e)
    (start : BlockPair) : EndInArea job (ms ++ [recordMatch job (runDigest h run) start e]) := by
  intro m hm
  rcases List.mem_append.1 hm with hm | hm
  · exact hms m hm
  · rw [List.mem_singleton.1 hm]
    exact hf.inside

/-- Every match that the rounds record ends in the searched area. -/
theorem EndInArea.run {h : Xxh (List Byte)} {job : CompareJob} (fuel : Nat) (s : CompareState)
    (hs : EndInArea job s.recorded) {ms : List BlockMatch}
    (hrun : Loop.run (compareRound h job) fuel s = some ms) : EndInArea job ms := by
  refine Loop.run_partial (fun s => EndInArea job s.recorded) ?_ ?_ fuel s hs hrun
  · intro s s' hs hstep
    rcases compareRound_cases h job s with
      ⟨-, heq⟩ | ⟨start, ps, run, e, -, hf, ⟨rest, -, heq⟩ | ⟨-, heq⟩⟩ <;> rw [heq] at hstep
    · cases hstep
    · cases hstep
      exact hs.record hf start
    · cases hstep
  · intro s r hs hstep
    rcases compareRound_cases h job s with
      ⟨-, heq⟩ | ⟨start, ps, run, e, -, hf, ⟨rest, -, heq⟩ | ⟨-, heq⟩⟩ <;> rw [heq] at hstep
    · cases hstep
      exact hs
    · cases hstep
    · cases hstep
      exact hs.record hf start

/-- A call of `compare_extents` ends and returns, with the matches of `compareExtents`. Every
    checksum that it started was finished once, and no match ends behind the searched
    area. -/
theorem compareExtents_returns (h : Xxh (List Byte)) (blocksize : Nat) (orig block : BlockPtr)
    {searchLen : Nat} (hpos : 0 < searchLen) (hbits : block.get.bLoff + searchLen < 2 ^ 64) :
    ∃ csums ms,
      Loop.Ends (CompareFrame.step h ⟨blocksize, orig.bFile, block.bFile,
        extentEndOf block.get.bLoff searchLen⟩) (.init orig block) (.returned csums ms) ∧
      compareExtents h blocksize orig.bFile block.bFile orig.index block.index searchLen = some ms ∧
      (∀ c ∈ csums, c.finished = 1) ∧
      ∀ m ∈ ms, m.eoff.2 ≤ block.get.bLoff + searchLen - 1 := by
  obtain ⟨ps, hps⟩ := pairsAhead_cons (orig, block)
  have hlockstep : lockstep orig.bFile block.bFile orig.index block.index =
      (orig.get, block.get) :: ps := hps
  obtain ⟨ms, hrun, -⟩ := run_compareRound h
    ⟨blocksize, orig.bFile, block.bFile, extentEndOf block.get.bLoff searchLen⟩
    ⟨(orig.get, block.get) :: ps, []⟩ (ps.length + 2) (by simp)
  have hcall : compareExtents h blocksize orig.bFile block.bFile orig.index block.index searchLen =
      some ms := by
    rw [compareExtents, hlockstep]
    exact hrun
  have harea : extentEndOf block.get.bLoff searchLen = block.get.bLoff + searchLen - 1 := by
    rw [extentEndOf, Word.wrap_of_lt hbits, Word.sub_of_le (by omega)]
  have hfinishes : CompareFrame.Finishes h ⟨blocksize, orig.bFile, block.bFile,
      extentEndOf block.get.bLoff searchLen⟩ (.init orig block) ms :=
    CompareFrame.finishes_run (c := (orig, block)) (ps.length + 2) ⟨rfl, rfl⟩
      (fun x hx => by cases hx) (hps ▸ hrun)
  obtain ⟨csums, hends, hdone⟩ := hfinishes
  refine ⟨csums, ms, hends, hcall, hdone, harea ▸ ?_⟩
  exact EndInArea.run (ps.length + 2) _ (fun m hm => by cases hm) hrun

/-- A call on two cursors in the same tree. -/
theorem compareExtents_returns_sameTree :
    0 < 8192 ∧ (⟨threeBlocks 0 [1] [1] [2], (1 : Fin 3)⟩ : BlockPtr).get.bLoff + 8192 < 2 ^ 64 ∧
    ∃ csums ms,
      Loop.Ends (CompareFrame.step Xxh.message ⟨4096, threeBlocks 0 [1] [1] [2],
        threeBlocks 0 [1] [1] [2], extentEndOf 4096 8192⟩)
        (.init ⟨threeBlocks 0 [1] [1] [2], (0 : Fin 3)⟩ ⟨threeBlocks 0 [1] [1] [2], (1 : Fin 3)⟩)
        (.returned csums ms) ∧
      compareExtents Xxh.message 4096 (threeBlocks 0 [1] [1] [2]) (threeBlocks 0 [1] [1] [2]) 0 1
        8192 = some ms ∧
      (∀ c ∈ csums, c.finished = 1) ∧ ∀ m ∈ ms, m.eoff.2 ≤ 4096 + 8192 - 1 :=
  ⟨by decide, by decide, compareExtents_returns Xxh.message 4096
    ⟨threeBlocks 0 [1] [1] [2], (0 : Fin 3)⟩ ⟨threeBlocks 0 [1] [1] [2], (1 : Fin 3)⟩
    (by decide) (by decide)⟩

end Duperemove
