-- SUMMARY: The numbers a scan gives to its files, and that batches do not change anything else.
import Duperemove.Dbfile.Renumber
import Duperemove.ScanRun.Interrupt

/-!
# Batches

The files of a scan get the numbers behind the one of the hashfile: the first
batch is one file short, every other one is full. Apart from the numbers a scan
does the same with every size of a batch, also with none at all, and this is
shown by a simulation: renumber everything behind the number of the hashfile to
the next one, and a scan with batches becomes the scan without.
-/

namespace Duperemove

open Transaction (Answer Conn)

-- ---------------------------------------------------------------------------
-- The numbers
-- ---------------------------------------------------------------------------

/-- The number of the `k`-th file of a scan, from one. -/
def numberOf (cfg : ScanConfig) (k : Nat) : Nat := cfg.dedupeSeq + 1 + k / cfg.batchSize

/-- The static variables when `k` files were given a number. -/
inductive BatchAt (cfg : ScanConfig) (b : Batch) (k : Nat) : Prop where
  | fresh (hb : b = ⟨0, 0⟩) (hk : k = 0)
  | entered (hseq : b.seq = numberOf cfg k)
      (hcounter : b.counter = if cfg.batchSize = 0 then 0 else k % cfg.batchSize)

section Numbers

variable {cfg : ScanConfig} {b : Batch} {k : Nat}

theorem numberOf_mono {k k' : Nat} (h : k ≤ k') : numberOf cfg k ≤ numberOf cfg k' :=
  Nat.add_le_add_left (Nat.div_le_div_right h) _

theorem lt_numberOf (cfg : ScanConfig) (k : Nat) : cfg.dedupeSeq < numberOf cfg k :=
  Nat.lt_of_lt_of_le (Nat.lt_succ_self _) (Nat.le_add_right _ _)

theorem BatchAt.enter (h : BatchAt cfg b k) (hlt : numberOf cfg k < 2 ^ 31) :
    (b.enter cfg.dedupeSeq).seq = numberOf cfg k ∧
      (b.enter cfg.dedupeSeq).counter = if cfg.batchSize = 0 then 0 else k % cfg.batchSize := by
  have hd := lt_numberOf cfg k
  cases h with
  | fresh hb hk =>
    subst hb hk
    have hzero : numberOf cfg 0 = cfg.dedupeSeq + 1 := by simp [numberOf]
    refine ⟨?_, by simp [Batch.enter]⟩
    rw [Batch.enter, if_pos rfl, hzero]
    exact Word.wrap_of_lt (by omega)
  | entered hseq hcounter =>
    rw [Batch.enter, if_neg (by omega)]
    exact ⟨hseq, hcounter⟩

/-- One more file moves the variables on by one. -/
theorem batchAt_next (hseq : b.seq = numberOf cfg k)
    (hcounter : b.counter = if cfg.batchSize = 0 then 0 else k % cfg.batchSize)
    (hlt : numberOf cfg (k + 1) < 2 ^ 31) : BatchAt cfg (b.next cfg.batchSize) (k + 1) := by
  by_cases hzero : cfg.batchSize = 0
  · rw [if_pos hzero] at hcounter
    rw [Batch.next, if_neg (by simpa using hzero)]
    refine .entered ?_ (by rw [if_pos hzero, hcounter])
    rw [hseq, numberOf, numberOf, hzero, Nat.div_zero, Nat.div_zero]
  · rw [if_neg hzero] at hcounter
    have hpos : 0 < cfg.batchSize := Nat.pos_of_ne_zero hzero
    have hmod : k % cfg.batchSize < cfg.batchSize := Nat.mod_lt _ hpos
    have hsize := cfg.batchSize_lt
    have hwrap : Word.wrap 32 (b.counter + 1) = k % cfg.batchSize + 1 := by
      rw [hcounter]
      exact Word.wrap_of_lt (by omega)
    have hk : k = cfg.batchSize * (k / cfg.batchSize) + k % cfg.batchSize :=
      (Nat.div_add_mod k cfg.batchSize).symm
    rw [Batch.next, if_pos hzero, hwrap]
    split
    · -- The batch is full.
      have hfull : k + 1 = cfg.batchSize * (k / cfg.batchSize + 1) := by
        rw [Nat.mul_add, Nat.mul_one]
        omega
      have hdiv : (k + 1) / cfg.batchSize = k / cfg.batchSize + 1 := by
        rw [hfull, Nat.mul_div_cancel_left _ hpos]
      have hnum : numberOf cfg (k + 1) = b.seq + 1 := by
        rw [hseq, numberOf, numberOf, hdiv]
        omega
      refine .entered ?_ ?_
      · rw [hnum]
        exact Word.wrap_of_lt (by omega)
      · rw [if_neg hzero, hfull, Nat.mul_mod_right]
    · have hstay : k + 1 = k % cfg.batchSize + 1 + cfg.batchSize * (k / cfg.batchSize) := by omega
      have hdiv : (k + 1) / cfg.batchSize = k / cfg.batchSize := by
        rw [hstay, Nat.add_mul_div_left _ _ hpos, Nat.div_eq_of_lt (by omega), Nat.zero_add]
      have hmod' : (k + 1) % cfg.batchSize = k % cfg.batchSize + 1 := by
        rw [hstay, Nat.add_mul_mod_self_left]
        exact Nat.mod_eq_of_lt (by omega)
      refine .entered ?_ ?_
      · show b.seq = _
        rw [hseq, numberOf, numberOf, hdiv]
      · rw [if_neg hzero, hmod']

end Numbers

-- ---------------------------------------------------------------------------
-- The numbers of a run
-- ---------------------------------------------------------------------------

/-- The steps of a scan that was started and is not killed. -/
def ScanEvent.isScan : ScanEvent → Bool
  | .start _ | .kill => false
  | .describe _ _ | .store _ _ | .worker _ _ _ => true

/-- The numbers given so far are those of the first files, and the static
    variables are behind the last one. -/
structure Numbered (cfg : ScanConfig) (s : ScanSys) : Prop where
  batch : BatchAt cfg s.batch s.given.length
  given : s.given = (List.range s.given.length).map fun j => numberOf cfg (j + 1)
  described : ∀ v id renamed seq, s.lister = .described v id renamed seq → seq ∈ s.given

section Run

variable {cfg : ScanConfig} {s s' : ScanSys}

/-- The steps of a scan: a visit, or a step that gives no number. -/
theorem scanStep_cases {event : ScanEvent} (hscan : event.isScan = true)
    (hstep : scanStep cfg s event = some s') :
    (∃ v ok, event = .describe v ok ∧ s.running = true ∧ s.lister = .idle ∧
      s' = describeFile cfg s v ok) ∨
    (s'.batch = s.batch ∧ s'.given = s.given ∧
      ∀ v id renamed seq, s'.lister = .described v id renamed seq → s'.lister = s.lister) := by
  cases event with
  | start pruned => cases hscan
  | kill => cases hscan
  | describe v ok =>
    obtain ⟨hr, hidle, rfl⟩ := scanStep_describe hstep
    exact .inl ⟨v, ok, rfl, hr, hidle, rfl⟩
  | store faults pushed =>
    have hlister := lister_of_scanStep_store hstep
    obtain ⟨_, _, _, _, -, _, _, _, -, rfl, -⟩ := scanStep_store hstep
    exact .inr ⟨rfl, rfl, fun v id renamed seq heq => absurd heq (hlister v id renamed seq)⟩
  | worker i result faults =>
    right
    obtain ⟨job, -, ⟨-, rfl⟩ | ⟨r, -, -, rfl⟩⟩ := scanStep_worker hstep
    · exact ⟨rfl, rfl, fun _ _ _ _ _ => rfl⟩
    · exact ⟨rfl, rfl, fun _ _ _ _ _ => rfl⟩

theorem given_length_le {event : ScanEvent} (hscan : event.isScan = true)
    (hstep : scanStep cfg s event = some s') : s.given.length ≤ s'.given.length := by
  rcases scanStep_cases hscan hstep with ⟨v, ok, -, -, -, rfl⟩ | ⟨-, heq, -⟩
  · rcases describeFile_cases cfg s v ok with ⟨heq, -⟩ | ⟨heq, -⟩
    · have hsame : (describeFile cfg s v ok).given = s.given := by rw [heq]
      exact Nat.le_of_eq (congrArg List.length hsame).symm
    · rw [heq]
      simp
  · exact Nat.le_of_eq (congrArg List.length heq).symm

theorem given_length_le_run {events : List ScanEvent} (hscan : ∀ e ∈ events, e.isScan = true)
    (hrun : scanRun cfg s events = some s') : s.given.length ≤ s'.given.length := by
  refine Steps.run_keeps (fun s₁ => s.given.length ≤ s₁.given.length) ?_ (Nat.le_refl _) hrun
  intro event hevent s₁ s₂ hle hstep
  exact Nat.le_trans hle (given_length_le (hscan event hevent) hstep)

theorem numbered_started (cfg : ScanConfig) (t : Tables) : Numbered cfg (.started t) where
  batch := .fresh rfl rfl
  given := rfl
  described := fun _ _ _ _ heq => by cases heq

/-- A step gives the next number or none, as long as the numbers do not run
    out. -/
theorem Numbered.step {event : ScanEvent} (h : Numbered cfg s) (hscan : event.isScan = true)
    (hstep : scanStep cfg s event = some s') (hlt : numberOf cfg s'.given.length < 2 ^ 31) :
    Numbered cfg s' := by
  rcases scanStep_cases hscan hstep with ⟨v, ok, -, -, hidle, rfl⟩ | ⟨hbatch, hgiven, hlister⟩
  · have hle := given_length_le hscan hstep
    obtain ⟨hseq, hcounter⟩ := h.batch.enter (Nat.lt_of_le_of_lt (numberOf_mono hle) hlt)
    rcases describeFile_cases cfg s v ok with ⟨heq, -⟩ | ⟨heq, -⟩
    · rw [heq]
      refine ⟨.entered hseq hcounter, h.given, ?_⟩
      intro v' id renamed seq hdesc
      rw [hidle] at hdesc
      cases hdesc
    · rw [heq] at hlt ⊢
      rw [List.length_append, List.length_singleton] at hlt
      have hnext := batchAt_next hseq hcounter hlt
      have hnum : ((s.batch.enter cfg.dedupeSeq).next cfg.batchSize).seq =
          numberOf cfg (s.given.length + 1) := by
        cases hnext with
        | fresh hb hk => cases hk
        | entered hseq' _ => exact hseq'
      refine ⟨?_, ?_, ?_⟩
      · rw [List.length_append, List.length_singleton]
        exact hnext
      · rw [List.length_append, List.length_singleton, List.range_succ, List.map_append, ← h.given,
          List.map_singleton, hnum]
      · intro v' id renamed seq hdesc
        cases hdesc
        exact List.mem_append_right _ List.mem_cons_self
  · refine ⟨?_, ?_, ?_⟩
    · rw [hbatch, hgiven]
      exact h.batch
    · rw [hgiven]
      exact h.given
    · intro v id renamed seq hdesc
      rw [hgiven]
      exact h.described v id renamed seq ((hlister v id renamed seq hdesc) ▸ hdesc)

theorem Numbered.run {events : List ScanEvent} (h : Numbered cfg s)
    (hscan : ∀ e ∈ events, e.isScan = true) (hrun : scanRun cfg s events = some s')
    (hlt : numberOf cfg s'.given.length < 2 ^ 31) : Numbered cfg s' := by
  induction events generalizing s with
  | nil =>
    cases hrun
    exact h
  | cons event events ih =>
    obtain ⟨s₁, hstep, hrun⟩ := Steps.run_cons.1 hrun
    have hrest : ∀ e ∈ events, e.isScan = true := fun e he => hscan e (List.mem_cons_of_mem _ he)
    have hle := given_length_le_run hrest hrun
    exact ih (h.step (hscan event List.mem_cons_self) hstep
      (Nat.lt_of_le_of_lt (numberOf_mono hle) hlt)) hrest hrun

end Run

-- ---------------------------------------------------------------------------
-- What the numbers are like
-- ---------------------------------------------------------------------------

section Given

variable {cfg : ScanConfig} {s : ScanSys}

theorem Numbered.lt_of_mem (h : Numbered cfg s) : ∀ n ∈ s.given, cfg.dedupeSeq < n := by
  intro n hn
  rw [h.given] at hn
  obtain ⟨j, -, rfl⟩ := List.mem_map.1 hn
  exact lt_numberOf cfg (j + 1)

theorem Numbered.le_of_mem (h : Numbered cfg s) : ∀ n ∈ s.given, n ≤ numberOf cfg s.given.length := by
  intro n hn
  rw [h.given] at hn
  obtain ⟨j, hj, rfl⟩ := List.mem_map.1 hn
  exact numberOf_mono (List.mem_range.1 hj)

theorem Numbered.pairwise (h : Numbered cfg s) : s.given.Pairwise (· ≤ ·) := by
  rw [h.given, List.pairwise_map]
  refine List.pairwise_lt_range.imp fun {j j'} hlt => ?_
  exact numberOf_mono (Nat.succ_le_succ (Nat.le_of_lt hlt))

/-- The files with one number are neighbours, at most a batch of them. -/
theorem Numbered.count_le (h : Numbered cfg s) (hpos : 0 < cfg.batchSize) (n : Nat) :
    s.given.count n ≤ cfg.batchSize := by
  have hsub : (List.range s.given.length).filter (fun j => numberOf cfg (j + 1) == n) ⊆
      List.range' ((n - cfg.dedupeSeq - 1) * cfg.batchSize - 1) cfg.batchSize := by
    intro j hj
    have hnum := (List.mem_filter.1 hj).2
    rw [beq_iff_eq, numberOf] at hnum
    have hle := Nat.div_mul_le_self (j + 1) cfg.batchSize
    have hlt := Nat.lt_div_mul_add (a := j + 1) hpos
    generalize (j + 1) / cfg.batchSize = q at hnum hle hlt
    have hquot : n - cfg.dedupeSeq - 1 = q := by omega
    rw [List.mem_range'_1, hquot]
    omega
  have hnodup : ((List.range s.given.length).filter fun j => numberOf cfg (j + 1) == n).Nodup :=
    List.nodup_range.sublist List.filter_sublist
  calc s.given.count n
      = ((List.range s.given.length).filter fun j => numberOf cfg (j + 1) == n).length := by
        rw [h.given, List.count, List.countP_map, List.length_map, List.length_range,
          List.countP_eq_length_filter]
        rfl
    _ ≤ (List.range' ((n - cfg.dedupeSeq - 1) * cfg.batchSize - 1) cfg.batchSize).length :=
        hnodup.length_le_of_subset hsub
    _ = cfg.batchSize := List.length_range'

end Given

-- ---------------------------------------------------------------------------
-- The numbers in the hashfile
-- ---------------------------------------------------------------------------

/-- No stored number is too large for an `int`. -/
def Tables.SeqsSmall (t : Tables) : Prop := ∀ f ∈ t.files, f.dedupeSeq < 2 ^ 31

section Small

variable {cfg : ScanConfig} {s s' : ScanSys}

theorem toInt_lt {n : Nat} (h : n < 2 ^ 31) : toInt n < 2 ^ 31 := by
  rw [toInt, if_pos h]
  omega

theorem scanFileStore_small {c : Conn Tables} (h : c.All Tables.SeqsSmall) {seq : Nat}
    (hseq : seq < 2 ^ 31) (faults : Nat → Answer) (v : ListedFile) (id : Nat) (renamed : Bool) :
    (scanFileStore faults v id renamed seq c).2.All Tables.SeqsSmall := by
  refine scanFileStore_all h ?_ (fun _ ht => ht) (fun _ ht => ht) ?_ faults renamed
  · intro t ht f hf
    obtain ⟨g, hg, rfl | ⟨-, rfl⟩⟩ := Tables.exists_of_mem_renameFile hf
    · exact ht f hg
    · exact ht g hg
  · intro t ht f hf
    rcases Tables.mem_writeFile_files.1 hf with ⟨hf, -⟩ | rfl
    · exact ht f hf
    · exact toInt_lt hseq

theorem workerCommit_small {c : Conn Tables} (h : c.All Tables.SeqsSmall) (faults : Nat → Answer)
    (fileid : Nat) (r : ScanCommit DigestBytes) :
    (workerCommit c faults fileid r).All Tables.SeqsSmall := by
  refine workerCommit_all h (fun t t' hadded ht f hf => ?_) faults
  obtain ⟨g, hg, ⟨-, rfl⟩ | ⟨-, rfl⟩⟩ := Tables.exists_of_mem_updateScannedFile hf
  · exact ht f (hadded.files ▸ hg)
  · exact ht g (hadded.files ▸ hg)

/-- A step that stores a number stores a small one. -/
theorem small_step {event : ScanEvent} (hscan : event.isScan = true)
    (hsmall : s.conn.All Tables.SeqsSmall)
    (hdescribed : ∀ v id renamed seq, s.lister = .described v id renamed seq → seq < 2 ^ 31)
    (hstep : scanStep cfg s event = some s') : s'.conn.All Tables.SeqsSmall := by
  cases event with
  | start pruned => cases hscan
  | kill => cases hscan
  | describe v ok =>
    obtain ⟨-, -, rfl⟩ := scanStep_describe hstep
    rcases describeFile_cases cfg s v ok with ⟨heq, -⟩ | ⟨heq, -⟩
    · rw [heq]
      exact hsmall
    · rw [heq]
      exact hsmall
  | store faults pushed =>
    obtain ⟨v, id, renamed, seq, hlister, _, _, _, -, rfl, -⟩ := scanStep_store hstep
    exact scanFileStore_small hsmall (hdescribed v id renamed seq hlister) faults v id renamed
  | worker i result faults =>
    obtain ⟨job, -, ⟨-, rfl⟩ | ⟨r, -, -, rfl⟩⟩ := scanStep_worker hstep
    · exact hsmall
    · exact workerCommit_small hsmall faults _ _

theorem Numbered.small_run {events : List ScanEvent} (h : Numbered cfg s)
    (hscan : ∀ e ∈ events, e.isScan = true) (hsmall : s.conn.All Tables.SeqsSmall)
    (hrun : scanRun cfg s events = some s') (hlt : numberOf cfg s'.given.length < 2 ^ 31) :
    s'.conn.All Tables.SeqsSmall := by
  induction events generalizing s with
  | nil =>
    cases hrun
    exact hsmall
  | cons event events ih =>
    have hle := given_length_le_run hscan hrun
    obtain ⟨s₁, hstep, hrun⟩ := Steps.run_cons.1 hrun
    have hevent := hscan event List.mem_cons_self
    have hrest : ∀ e ∈ events, e.isScan = true := fun e he => hscan e (List.mem_cons_of_mem _ he)
    have hlt₁ : numberOf cfg s₁.given.length < 2 ^ 31 :=
      Nat.lt_of_le_of_lt (numberOf_mono (given_length_le_run hrest hrun)) hlt
    refine ih (h.step hevent hstep hlt₁) hrest (small_step hevent hsmall ?_ hstep) hrun
    intro v id renamed seq hlister
    have hseq := h.le_of_mem seq (h.described v id renamed seq hlister)
    exact Nat.lt_of_le_of_lt (Nat.le_trans hseq (numberOf_mono hle)) hlt

end Small

-- ---------------------------------------------------------------------------
-- Transactions on a renumbered hashfile
-- ---------------------------------------------------------------------------

section Transactions

variable {g : Int → Int} {c : Conn Tables}

theorem storeFileInfo_map {seq seq₀ : Nat} (hseq : g (toInt seq) = toInt seq₀)
    (faults : Nat → Answer) (v : ListedFile) :
    storeFileInfo faults v seq₀ (c.map (Tables.renumber g)) =
      ((storeFileInfo faults v seq c).1, (storeFileInfo faults v seq c).2.map
        (Tables.renumber g)) := by
  have hinfo : (v.info seq).renumber g = v.info seq₀ := by
    rw [ListedFile.info, FileInfo.renumber, hseq]
    rfl
  unfold storeFileInfo
  simp only [Transaction.Conn.map_sees, Tables.newRowid_renumber]
  rw [Transaction.exec_map faults (fun t => some (t.writeFile (v.info seq))) _
    (fun t => by rw [← hinfo, Tables.writeFile_renumber]; rfl)]
  cases Transaction.exec faults (fun t => some (t.writeFile (v.info seq))) c with
  | mk ok c₁ =>
    cases ok with
    | false => simp only [Transaction.rollback_map]
    | true => simp only [Transaction.commit_map]

theorem removeOldHashes_map (faults : Nat → Answer) (v : ListedFile) (id : Nat) :
    removeOldHashes faults v id (c.map (Tables.renumber g)) =
      (removeOldHashes faults v id c).map (Tables.renumber g) := by
  have hblocks := Transaction.exec_map (c := c) (g := Tables.renumber g) faults
    (fun t => some (t.removeBlockHashes id)) (fun t => some (t.removeBlockHashes id)) fun _ => rfl
  unfold removeOldHashes
  split
  · rw [hblocks]
    generalize (Transaction.exec faults (fun t => some (t.removeBlockHashes id)) c).2 = c₁
    have hextents := Transaction.exec_map (c := c₁) (g := Tables.renumber g) faults
      (fun t => some (t.removeExtentHashes id)) (fun t => some (t.removeExtentHashes id))
      fun _ => rfl
    exact congrArg Prod.snd hextents
  · rfl

theorem renameIfMoved_map (faults : Nat → Answer) (v : ListedFile) (id : Nat) (renamed : Bool) :
    renameIfMoved faults v id renamed (c.map (Tables.renumber g)) =
      ((renameIfMoved faults v id renamed c).1, (renameIfMoved faults v id renamed c).2.map
        (Tables.renumber g)) := by
  unfold renameIfMoved
  split
  · exact Transaction.exec_map faults _ _ fun t => by rw [Tables.renameFile_renumber]; rfl
  · rfl

/-- The lister's transaction does the same on a renumbered hashfile, with the
    number renumbered as well. -/
theorem scanFileStore_map {seq seq₀ : Nat} (hseq : g (toInt seq) = toInt seq₀)
    (faults : Nat → Answer) (v : ListedFile) (id : Nat) (renamed : Bool) :
    scanFileStore faults v id renamed seq₀ (c.map (Tables.renumber g)) =
      ((scanFileStore faults v id renamed seq c).1,
        (scanFileStore faults v id renamed seq c).2.map (Tables.renumber g)) := by
  unfold scanFileStore
  rw [Transaction.begin_map]
  simp only [renameIfMoved_map]
  cases renameIfMoved faults v id renamed (Transaction.begin faults c).2 with
  | mk ok c₁ =>
    cases ok with
    | false => rfl
    | true => simp only [removeOldHashes_map, storeFileInfo_map hseq]

theorem csumCommit_map (faults : Nat → Answer) (fileid : Nat) (r : ScanCommit DigestBytes) :
    csumCommit faults fileid r (c.map (Tables.renumber g)) =
      ((csumCommit faults fileid r c).1,
        (csumCommit faults fileid r c).2.map (Tables.renumber g)) := by
  have hblocks : ∀ stmt ∈ blockStatements fileid r.blocks, ∀ t,
      stmt (Tables.renumber g t) = (stmt t).map (Tables.renumber g) := by
    intro stmt hstmt t
    obtain ⟨b, -, rfl⟩ := List.mem_map.1 hstmt
    exact Tables.insertBlock_renumber t _
  have hextents : ∀ stmt ∈ extentStatements fileid r.extents, ∀ t,
      stmt (Tables.renumber g t) = (stmt t).map (Tables.renumber g) := by
    intro stmt hstmt t
    obtain ⟨e, -, rfl⟩ := List.mem_map.1 hstmt
    exact Tables.insertExtent_renumber t _
  unfold csumCommit
  rw [Transaction.begin_map]
  cases Transaction.begin faults c with
  | mk ok c₁ =>
    cases ok with
    | false => rfl
    | true =>
      simp only [Transaction.execAll_map hblocks]
      cases Transaction.execAll faults (blockStatements fileid r.blocks) c₁ with
      | mk ok c₂ =>
        cases ok with
        | false => simp only [Transaction.rollback_map]
        | true =>
          simp only [Transaction.execAll_map hextents]
          cases Transaction.execAll faults (extentStatements fileid r.extents) c₂ with
          | mk ok c₃ =>
            cases ok with
            | false => simp only [Transaction.rollback_map]
            | true =>
              simp only
              rw [Transaction.exec_map faults
                (fun t => some (t.updateScannedFile r.digest r.flags fileid)) _
                (fun t => by rw [Tables.updateScannedFile_renumber]; rfl)]
              cases Transaction.exec faults
                  (fun t => some (t.updateScannedFile r.digest r.flags fileid)) c₃ with
              | mk ok c₄ =>
                cases ok with
                | false => simp only [Transaction.rollback_map]
                | true => simp only [Transaction.commit_map]

theorem workerCommit_map (faults : Nat → Answer) (fileid : Nat) (r : ScanCommit DigestBytes) :
    workerCommit (c.map (Tables.renumber g)) faults fileid r =
      (workerCommit c faults fileid r).map (Tables.renumber g) := by
  obtain ⟨d, view, n⟩ := c
  cases view with
  | some t => rfl
  | none =>
    have hmap := csumCommit_map (g := g) (c := ⟨d, none, 0⟩) faults fileid r
    unfold workerCommit
    simp only [Transaction.Conn.map, Option.map_none] at hmap ⊢
    rw [hmap]

end Transactions

-- ---------------------------------------------------------------------------
-- The simulation
-- ---------------------------------------------------------------------------

/-- Give every number behind `d` to the next batch. -/
def clampSeq (d : Nat) (n : Int) : Int := min n (d + 1)

/-- The same scan without batches. -/
def ScanConfig.unbatched (cfg : ScanConfig) : ScanConfig :=
  { cfg with
    batchSize := 0
    batchSize_lt := Nat.lt_of_le_of_lt (Nat.zero_le _) cfg.batchSize_lt }

def Lister.unbatched (d : Nat) : Lister → Lister
  | .described v id renamed _ => .described v id renamed (d + 1)
  | l => l

/-- The state of the scan without batches. -/
def ScanSys.unbatched (d : Nat) (s : ScanSys) : ScanSys where
  conn := s.conn.map (Tables.renumber (clampSeq d))
  running := s.running
  batch := if s.batch.seq = 0 then ⟨0, 0⟩ else ⟨d + 1, 0⟩
  lister := s.lister.unbatched d
  queue := s.queue
  visited := s.visited
  given := s.given.map fun _ => d + 1

section Simulation

variable {cfg : ScanConfig} {s s' : ScanSys}

theorem dbfileDescribeFile_renumber (g : Int → Int) (t : Tables) (ino subvol : Nat) :
    dbfileDescribeFile (t.renumber g) ino subvol = dbfileDescribeFile t ino subvol := by
  unfold dbfileDescribeFile Tables.renumber
  rw [List.find?_map]
  have hcomp : ((fun f => decide (f.ino = ino ∧ f.subvol = subvol)) ∘ FileRow.renumber g) =
      fun f => decide (f.ino = ino ∧ f.subvol = subvol) := rfl
  rw [hcomp]
  cases t.files.find? fun f => decide (f.ino = ino ∧ f.subvol = subvol) <;> rfl

/-- A number behind the one of the hashfile becomes the next one. -/
theorem clampSeq_toInt {d seq : Nat} (hgt : d < seq) (hlt : seq < 2 ^ 31) :
    clampSeq d (toInt seq) = toInt (d + 1) := by
  unfold clampSeq toInt
  rw [if_pos hlt, if_pos (by omega)]
  omega

theorem describeFile_unbatched (h : Numbered cfg s) (v : ListedFile) (ok : Bool)
    (hlt : numberOf cfg (describeFile cfg s v ok).given.length < 2 ^ 31) :
    describeFile cfg.unbatched (s.unbatched cfg.dedupeSeq) v ok =
      (describeFile cfg s v ok).unbatched cfg.dedupeSeq := by
  have hd : cfg.dedupeSeq + 1 < 2 ^ 31 :=
    Nat.lt_of_le_of_lt (lt_numberOf cfg _) hlt
  have henter : (s.unbatched cfg.dedupeSeq).batch.enter cfg.dedupeSeq = ⟨cfg.dedupeSeq + 1, 0⟩ := by
    show (if s.batch.seq = 0 then _ else _ : Batch).enter cfg.dedupeSeq = _
    split
    · simp only [Batch.enter, if_true]
      rw [Word.wrap_of_lt (by omega)]
    · rw [Batch.enter, if_neg (by simp)]
  have hdescribe : dbfileDescribeFile (s.unbatched cfg.dedupeSeq).conn.sees v.ino v.subvol =
      dbfileDescribeFile s.conn.sees v.ino v.subvol := by
    show dbfileDescribeFile (s.conn.map (Tables.renumber (clampSeq cfg.dedupeSeq))).sees _ _ = _
    rw [Transaction.Conn.map_sees, dbfileDescribeFile_renumber]
  have hcfg : cfg.unbatched.dedupeSeq = cfg.dedupeSeq := rfl
  rcases describeFile_cases cfg s v ok with ⟨heq, hskip⟩ | ⟨heq, hskip⟩
  · rw [heq] at hlt ⊢
    obtain ⟨hseq, -⟩ := h.batch.enter hlt
    have hpos := lt_numberOf cfg s.given.length
    have hne : (s.batch.enter cfg.dedupeSeq).seq ≠ 0 := by omega
    unfold describeFile
    simp only [hdescribe, if_pos hskip, hcfg, henter]
    simp only [ScanSys.unbatched, if_neg hne]
  · rw [heq] at hlt ⊢
    rw [List.length_append, List.length_singleton] at hlt
    obtain ⟨hseq, hcounter⟩ := h.batch.enter
      (Nat.lt_of_le_of_lt (numberOf_mono (Nat.le_succ _)) hlt)
    have hne : ((s.batch.enter cfg.dedupeSeq).next cfg.batchSize).seq ≠ 0 := by
      have hpos := lt_numberOf cfg (s.given.length + 1)
      cases batchAt_next hseq hcounter hlt with
      | fresh hb hk => cases hk
      | entered hseq' _ => omega
    have hnext : (⟨cfg.dedupeSeq + 1, 0⟩ : Batch).next cfg.unbatched.batchSize =
        ⟨cfg.dedupeSeq + 1, 0⟩ := rfl
    unfold describeFile
    simp only [hdescribe, if_neg hskip, hcfg, henter, hnext]
    simp only [ScanSys.unbatched, if_neg hne, Lister.unbatched, List.map_append,
      List.map_singleton]

/-- Every step of a scan with batches is a step of the scan without. -/
theorem scanStep_unbatched {event : ScanEvent} (h : Numbered cfg s) (hscan : event.isScan = true)
    (hstep : scanStep cfg s event = some s') (hlt : numberOf cfg s'.given.length < 2 ^ 31) :
    scanStep cfg.unbatched (s.unbatched cfg.dedupeSeq) event =
      some (s'.unbatched cfg.dedupeSeq) := by
  have hle := given_length_le hscan hstep
  cases event with
  | start pruned => cases hscan
  | kill => cases hscan
  | describe v ok =>
    obtain ⟨hr, hidle, rfl⟩ := scanStep_describe hstep
    have hr' : (s.unbatched cfg.dedupeSeq).running = true := hr
    have hidle' : (s.unbatched cfg.dedupeSeq).lister = .idle := by
      show s.lister.unbatched _ = _
      rw [hidle]
      rfl
    simp only [scanStep, hr', hidle', describeFile_unbatched h v ok hlt]
  | store faults pushed =>
    obtain ⟨v, id, renamed, seq, hlister, ret, lister, queue, hret, rfl, hcases⟩ :=
      scanStep_store hstep
    have hlister' : (s.unbatched cfg.dedupeSeq).lister =
        .described v id renamed (cfg.dedupeSeq + 1) := by
      show s.lister.unbatched _ = _
      rw [hlister]
      rfl
    have hmem := h.described v id renamed seq hlister
    have hseq : clampSeq cfg.dedupeSeq (toInt seq) = toInt (cfg.dedupeSeq + 1) :=
      clampSeq_toInt (h.lt_of_mem seq hmem)
        (Nat.lt_of_le_of_lt (Nat.le_trans (h.le_of_mem seq hmem) (numberOf_mono hle)) hlt)
    have hstore := scanFileStore_map (c := s.conn) hseq faults v id renamed
    have hconn : (s.unbatched cfg.dedupeSeq).conn =
        s.conn.map (Tables.renumber (clampSeq cfg.dedupeSeq)) := rfl
    simp only [scanStep, hlister', hconn, hstore, hret]
    rcases hcases with ⟨rfl, rfl, rfl⟩ | ⟨rfl, rfl, rfl⟩ | ⟨fileid, rfl, rfl, rfl⟩
    · rfl
    · rfl
    · cases pushed <;> rfl
  | worker i result faults =>
    have hqueue : (s.unbatched cfg.dedupeSeq).queue = s.queue := rfl
    have hlister : (s.unbatched cfg.dedupeSeq).lister = s.lister.unbatched cfg.dedupeSeq := rfl
    have hconn : (s.unbatched cfg.dedupeSeq).conn =
        s.conn.map (Tables.renumber (clampSeq cfg.dedupeSeq)) := rfl
    obtain ⟨job, hjob, ⟨rfl, rfl⟩ | ⟨r, rfl, hstuck, rfl⟩⟩ := scanStep_worker hstep
    · simp only [scanStep, hqueue, hjob]
      rfl
    · have hworker := workerCommit_map (g := clampSeq cfg.dedupeSeq) (c := s.conn) faults
        job.fileid r
      simp only [scanStep, hqueue, hjob, hlister, hconn]
      cases hl : s.lister with
      | stuck => exact absurd hl hstuck
      | idle => simp only [Lister.unbatched, ScanSys.unbatched, hl, hworker]
      | described v id renamed seq => simp only [Lister.unbatched, ScanSys.unbatched, hl, hworker]
      | ended => simp only [Lister.unbatched, ScanSys.unbatched, hl, hworker]

theorem scanRun_unbatched {events : List ScanEvent} (h : Numbered cfg s)
    (hscan : ∀ e ∈ events, e.isScan = true) (hrun : scanRun cfg s events = some s')
    (hlt : numberOf cfg s'.given.length < 2 ^ 31) :
    scanRun cfg.unbatched (s.unbatched cfg.dedupeSeq) events =
      some (s'.unbatched cfg.dedupeSeq) := by
  induction events generalizing s with
  | nil =>
    cases hrun
    rfl
  | cons event events ih =>
    obtain ⟨s₁, hstep, hrun⟩ := Steps.run_cons.1 hrun
    have hrest : ∀ e ∈ events, e.isScan = true := fun e he => hscan e (List.mem_cons_of_mem _ he)
    have hlt₁ : numberOf cfg s₁.given.length < 2 ^ 31 :=
      Nat.lt_of_le_of_lt (numberOf_mono (given_length_le_run hrest hrun)) hlt
    have hevent := hscan event List.mem_cons_self
    exact Steps.run_cons.2 ⟨_, scanStep_unbatched h hevent hstep hlt₁,
      ih (h.step hevent hstep hlt₁) hrest hrun⟩

/-- A hashfile without numbers behind its own is the start of both scans. -/
theorem unbatched_started {t : Tables} {d : Nat} (hseq : ∀ f ∈ t.files, f.dedupeSeq ≤ d) :
    (ScanSys.started t).unbatched d = .started t := by
  have hfiles : t.files.map (FileRow.renumber (clampSeq d)) = t.files := by
    refine (List.map_congr_left fun f hf => ?_).trans (List.map_id _)
    have hle := hseq f hf
    have hmin : clampSeq d f.dedupeSeq = f.dedupeSeq := by
      unfold clampSeq
      omega
    rw [FileRow.renumber, hmin]
    rfl
  have htables : t.renumber (clampSeq d) = t := by
    rw [Tables.renumber, hfiles]
  unfold ScanSys.unbatched ScanSys.started Transaction.Conn.map
  simp only [htables]
  rfl

end Simulation

-- ---------------------------------------------------------------------------
-- Scans without new files
-- ---------------------------------------------------------------------------

/-- A scan that came across up-to-date files only. -/
structure Untouched (t : Tables) (s : ScanSys) : Prop where
  conn : s.conn = ⟨t, none, 0⟩
  running : s.running = true
  lister : s.lister = .idle
  queue : s.queue = []
  given : s.given = []

section Untouched

variable {cfg cfg' : ScanConfig} {t : Tables} {s s₀ s' : ScanSys}

theorem untouched_started (t : Tables) : Untouched t (.started t) := ⟨rfl, rfl, rfl, rfl, rfl⟩

variable (cfg') in
/-- A visit that gives no number is the same for every configuration. -/
theorem Untouched.describeFile (h : Untouched t s) (h₀ : Untouched t s₀) {v : ListedFile}
    {ok : Bool} (hnone : (describeFile cfg s v ok).given = []) :
    Untouched t (describeFile cfg s v ok) ∧ Untouched t (describeFile cfg' s₀ v ok) := by
  rcases describeFile_cases cfg s v ok with ⟨heq, hskip⟩ | ⟨heq, -⟩
  · rcases describeFile_cases cfg' s₀ v ok with ⟨heq₀, -⟩ | ⟨-, hskip₀⟩
    · rw [heq, heq₀]
      exact ⟨⟨h.conn, h.running, h.lister, h.queue, h.given⟩,
        ⟨h₀.conn, h₀.running, h₀.lister, h₀.queue, h₀.given⟩⟩
    · rw [h.conn] at hskip
      rw [h₀.conn] at hskip₀
      exact absurd hskip hskip₀
  · rw [heq] at hnone
    simp at hnone

variable (cfg') in
theorem Untouched.step {event : ScanEvent} (h : Untouched t s) (h₀ : Untouched t s₀)
    (hscan : event.isScan = true) (hstep : scanStep cfg s event = some s') (hnone : s'.given = []) :
    Untouched t s' ∧ ∃ s₀', scanStep cfg' s₀ event = some s₀' ∧ Untouched t s₀' := by
  cases event with
  | start pruned => cases hscan
  | kill => cases hscan
  | describe v ok =>
    simp only [scanStep, h.running, h.lister] at hstep
    cases hstep
    obtain ⟨hs, hs₀⟩ := h.describeFile cfg' h₀ hnone
    refine ⟨hs, _, ?_, hs₀⟩
    simp only [scanStep, h₀.running, h₀.lister]
  | store faults pushed =>
    simp only [scanStep, h.lister] at hstep
    cases hstep
  | worker i result faults =>
    simp only [scanStep, h.queue, List.getElem?_nil] at hstep
    cases hstep

variable (cfg') in
theorem Untouched.run {events : List ScanEvent} (h : Untouched t s) (h₀ : Untouched t s₀)
    (hscan : ∀ e ∈ events, e.isScan = true) (hrun : scanRun cfg s events = some s')
    (hnone : s'.given = []) :
    Untouched t s' ∧ ∃ s₀', scanRun cfg' s₀ events = some s₀' ∧ Untouched t s₀' := by
  induction events generalizing s s₀ with
  | nil =>
    cases hrun
    exact ⟨h, s₀, rfl, h₀⟩
  | cons event events ih =>
    obtain ⟨s₁, hstep, hrun⟩ := Steps.run_cons.1 hrun
    have hrest : ∀ e ∈ events, e.isScan = true := fun e he => hscan e (List.mem_cons_of_mem _ he)
    have hnone₁ : s₁.given = [] := by
      have hle := given_length_le_run hrest hrun
      rw [hnone, List.length_nil] at hle
      exact List.length_eq_zero_iff.1 (Nat.le_zero.1 hle)
    obtain ⟨h₁, s₀₁, hstep₀, h₀₁⟩ :=
      h.step cfg' h₀ (hscan event List.mem_cons_self) hstep hnone₁
    obtain ⟨hs', s₀', hrun₀, hs₀'⟩ := ih h₁ h₀₁ hrest hrun
    exact ⟨hs', s₀', Steps.run_cons.2 ⟨s₀₁, hstep₀, hrun₀⟩, hs₀'⟩

end Untouched

end Duperemove
