-- SUMMARY: The rounds of `process_duplicates` with their failures, and the sequence number they leave in the hashfile.
import Duperemove.Dbfile.Config
import Duperemove.ScanRun.Pairs

/-!
# Rounds

`process_duplicates` runs one round for each batch that was not deduped yet, and
then counts the batch as deduped: it bumps `dedupe_seq` and stores it. A round is
a function without a result that gives up when a load or the search fails. The
caller does not know, so a batch whose round gave up is counted as well.
-/

namespace Duperemove

/-! ## One round -/

/-- What the steps of the round for a sequence number answer, an error or the
    results, and how many statements of the sync at its end succeed. -/
structure RoundWorld where
  loadSameFiles : Nat → Except Nat ResultsTree
  loadExtentHashes : Nat → Except Nat ResultsTree
  loadBlockHashes : Nat → Except Nat Unit
  findAdditionalDedupe : Nat → ResultsTree → Except Nat ResultsTree
  synced : Nat → Nat

/-- One call of `dedupe_results`. -/
structure DedupePass where
  seq : Nat
  wholeFile : Bool
  res : ResultsTree

/-- The part of `__process_duplicates` for extents: the results it passes to
    `dedupe_results`, unless it gives up. -/
def extentResults (options : Options) (w : RoundWorld) (seq : Nat) : Except Nat ResultsTree := do
  let res ← w.loadExtentHashes seq
  if options.doBlockHash then
    w.loadBlockHashes seq
    w.findAdditionalDedupe seq res
  else
    return res

/-- `__process_duplicates` with `-d`, as the calls of `dedupe_results` it makes.
    Errors of the steps end the round and go nowhere. -/
def processRound (options : Options) (w : RoundWorld) (seq : Nat) : List DedupePass :=
  match w.loadSameFiles seq with
  | .error _ => []
  | .ok res =>
    ⟨seq, true, res⟩ ::
      if options.onlyWholeFiles then []
      else
        match extentResults options w seq with
        | .error _ => []
        | .ok res => [⟨seq, false, res⟩]

/-- Some step of the round fails. -/
def GivesUp (options : Options) (w : RoundWorld) (seq : Nat) : Prop :=
  (∃ err, w.loadSameFiles seq = .error err) ∨
    (options.onlyWholeFiles = false ∧ ∃ err, extentResults options w seq = .error err)

/-- The batch went through `dedupe_results`, with its files and with its extents. -/
def WentThrough (options : Options) (passes : List DedupePass) (seq : Nat) : Prop :=
  (∃ p ∈ passes, p.seq = seq ∧ p.wholeFile = true) ∧
    (options.onlyWholeFiles = false → ∃ p ∈ passes, p.seq = seq ∧ p.wholeFile = false)

theorem processRound_seq {options : Options} {w : RoundWorld} {seq : Nat} {p : DedupePass}
    (hp : p ∈ processRound options w seq) : p.seq = seq := by
  unfold processRound at hp
  split at hp
  · cases hp
  · rcases List.mem_cons.1 hp with rfl | hp
    · rfl
    · split at hp
      · cases hp
      · split at hp
        · cases hp
        · rw [List.mem_singleton.1 hp]

/-- A round takes its batch through `dedupe_results` exactly when no step fails. -/
theorem wentThrough_processRound (options : Options) (w : RoundWorld) (seq : Nat) :
    WentThrough options (processRound options w seq) seq ↔ ¬ GivesUp options w seq := by
  unfold WentThrough GivesUp processRound
  cases w.loadSameFiles seq with
  | error err => simp
  | ok res =>
    cases options.onlyWholeFiles with
    | true => simp
    | false => cases extentResults options w seq <;> simp

/-! ## The loop -/

/-- The variables of `process_duplicates`, the config table of the hashfile, and
    the passes so far. -/
structure RoundsState where
  dedupeSeq : Nat
  cfg : DbfileConfig
  table : ConfigTable
  passes : List DedupePass

/-- The sequence number that the next run reads from the hashfile. -/
def storedSeq (t : ConfigTable) : Nat := t.dedupeSequence.getD 0

/-- What `main` leaves for `process_duplicates`: the config that it read. -/
def RoundsState.start (blocksize : Nat) (table : ConfigTable) : RoundsState :=
  ⟨storedSeq table, dbfileGetConfig blocksize table, table, []⟩

/-- One iteration of the loop of `process_duplicates` with `-d`. -/
def roundStep (options : Options) (w : RoundWorld) (blocksize : Nat) (s : RoundsState) (i : Nat) :
    RoundsState :=
  let passes := processRound options w (Word.wrap 32 (i + 1))
  let dedupeSeq := Word.wrap 32 (s.dedupeSeq + 1)
  let cfg := { s.cfg with dedupeSeq := dedupeSeq, blocksize := blocksize }
  { dedupeSeq := dedupeSeq
    cfg := cfg
    table := dbfileSyncConfig (w.synced (Word.wrap 32 (i + 1))) cfg s.table
    passes := s.passes ++ passes }

/-- The loop of `process_duplicates`, up to the iteration in front of `max`. -/
def processRounds (options : Options) (w : RoundWorld) (blocksize max : Nat) (s : RoundsState) :
    RoundsState :=
  (List.range' s.dedupeSeq (max - s.dedupeSeq)).foldl (roundStep options w blocksize) s

/-! ## The stored number -/

theorem dedupeSequence_sync (n : Nat) (cfg : DbfileConfig) (t : ConfigTable) :
    (dbfileSyncConfig n cfg t).dedupeSequence =
      if 3 ≤ n then some cfg.dedupeSeq else t.dedupeSequence := by
  rcases n with _ | _ | _ | _ | _ | n
  · rfl
  · rfl
  · rfl
  · rfl
  · rfl
  · rw [if_pos (by omega), dbfileSyncConfig, List.take_of_length_le (by simp [configStatements])]
    rfl

/-- The sequence number gets to the hashfile in the round for `seq`. -/
def RoundWorld.Stores (w : RoundWorld) (seq : Nat) : Prop := 3 ≤ w.synced seq

instance (w : RoundWorld) (seq : Nat) : Decidable (w.Stores seq) := Nat.decLe ..

/-- The state after the rounds for the numbers in `(d, d + k]`: the number that is
    stored is the one of the last round that stored its own. -/
structure AfterRounds (options : Options) (w : RoundWorld) (d k : Nat) (s : RoundsState) :
    Prop where
  dedupeSeq : s.dedupeSeq = d + k
  stored_le : storedSeq s.table ≤ d + k
  stored_by : storedSeq s.table ≠ d → d < storedSeq s.table ∧ w.Stores (storedSeq s.table)
  stored_last : ∀ seq, storedSeq s.table < seq → seq ≤ d + k → ¬ w.Stores seq
  passes_le : ∀ p ∈ s.passes, p.seq ≤ d + k
  passes : ∀ seq, d < seq → seq ≤ d + k →
    (WentThrough options s.passes seq ↔ ¬ GivesUp options w seq)

section Rounds

variable {options : Options} {w : RoundWorld} {d k blocksize : Nat} {s : RoundsState}

/-- Only the passes of its own round count for a batch. -/
theorem wentThrough_congr {as bs : List DedupePass} {seq : Nat}
    (h : ∀ p, p.seq = seq → (p ∈ as ↔ p ∈ bs)) :
    WentThrough options as seq ↔ WentThrough options bs seq := by
  have hsame : ∀ b, (∃ p ∈ as, p.seq = seq ∧ p.wholeFile = b) ↔
      ∃ p ∈ bs, p.seq = seq ∧ p.wholeFile = b := by
    intro b
    constructor
    · rintro ⟨p, hp, hseq, hb⟩
      exact ⟨p, (h p hseq).1 hp, hseq, hb⟩
    · rintro ⟨p, hp, hseq, hb⟩
      exact ⟨p, (h p hseq).2 hp, hseq, hb⟩
  rw [WentThrough, hsame, hsame]
  rfl

theorem afterRounds_start (table : ConfigTable) :
    AfterRounds options w (storedSeq table) 0 (.start blocksize table) where
  dedupeSeq := rfl
  stored_le := Nat.le_refl _
  stored_by := fun h => absurd rfl h
  stored_last := by
    intro seq hlt hle
    exact absurd hlt (Nat.not_lt.2 hle)
  passes_le := by simp [RoundsState.start]
  passes := by
    intro seq hlt hle
    exact absurd hlt (Nat.not_lt.2 hle)

/-- One more round. -/
theorem AfterRounds.step (h : AfterRounds options w d k s) (hlt : d + k + 1 < 2 ^ 32) :
    AfterRounds options w d (k + 1) (roundStep options w blocksize s (d + k)) := by
  have hseq : Word.wrap 32 (d + k + 1) = d + k + 1 := Word.wrap_of_lt hlt
  have hstored : storedSeq (roundStep options w blocksize s (d + k)).table =
      if w.Stores (d + k + 1) then d + k + 1 else storedSeq s.table := by
    unfold storedSeq roundStep
    simp only [h.dedupeSeq, hseq, dedupeSequence_sync]
    by_cases hstores : w.Stores (d + k + 1)
    · rw [if_pos hstores, if_pos (show 3 ≤ _ from hstores)]
      rfl
    · rw [if_neg hstores, if_neg (show ¬ 3 ≤ _ from hstores)]
  have hpasses : (roundStep options w blocksize s (d + k)).passes =
      s.passes ++ processRound options w (d + k + 1) := by
    unfold roundStep
    simp only [hseq]
  refine ⟨?_, ?_, ?_, ?_, ?_, ?_⟩
  · unfold roundStep
    simp only [h.dedupeSeq, hseq]
    rfl
  · rw [hstored]
    have := h.stored_le
    split <;> omega
  · rw [hstored]
    split
    · rename_i hstores
      exact fun _ => ⟨by omega, hstores⟩
    · exact h.stored_by
  · intro seq hafter hle
    rw [hstored] at hafter
    split at hafter
    · omega
    · rename_i hstores
      rcases Nat.lt_or_ge (d + k) seq with hnew | hold
      · obtain rfl : seq = d + k + 1 := by omega
        exact hstores
      · exact h.stored_last seq hafter hold
  · intro p hp
    rw [hpasses] at hp
    rcases List.mem_append.1 hp with hp | hp
    · exact Nat.le_succ_of_le (h.passes_le p hp)
    · exact Nat.le_of_eq (processRound_seq hp)
  · intro seq hlo hhi
    rw [hpasses]
    rcases Nat.lt_or_ge (d + k) seq with hnew | hold
    · obtain rfl : seq = d + k + 1 := by omega
      rw [← wentThrough_processRound]
      apply wentThrough_congr
      intro p hp
      rw [List.mem_append, or_iff_right]
      intro hmem
      have := h.passes_le p hmem
      omega
    · rw [← h.passes seq hlo hold]
      apply wentThrough_congr
      intro p hp
      rw [List.mem_append, or_iff_left]
      intro hmem
      have := processRound_seq hmem
      omega

theorem afterRounds_run (table : ConfigTable) (hlt : 0 < k → storedSeq table + k < 2 ^ 32) :
    AfterRounds options w (storedSeq table) k
      ((List.range' (storedSeq table) k).foldl (roundStep options w blocksize)
        (.start blocksize table)) := by
  induction k with
  | zero => exact afterRounds_start table
  | succ k ih =>
    rw [List.range'_1_concat, List.foldl_append]
    exact (ih (by omega)).step (hlt (Nat.succ_pos k))

end Rounds

/-! ## Whether the number runs ahead -/

/-- The stored number reached only batches that went through, and a batch whose
    round gave up is offered again by the next run, as long as it is there. -/
structure NeverAhead (options : Options) (d m : Nat) (s : RoundsState) : Prop where
  reaches : ∀ seq, d < seq → seq ≤ storedSeq s.table → WentThrough options s.passes seq
  offered : ∀ seq, d < seq → seq ≤ m → ¬ WentThrough options s.passes seq →
    ∀ t : Tables, seq ≤ getMaxDedupeSeq t → seq ∈ processedSeqs (storedSeq s.table) t

theorem getMaxDedupeSeq_lt (t : Tables) : getMaxDedupeSeq t < 2 ^ 32 := by
  unfold getMaxDedupeSeq
  split <;> omega

theorem AfterRounds.neverAhead_iff {options : Options} {w : RoundWorld} {d k : Nat}
    {s : RoundsState} (h : AfterRounds options w d k s) :
    NeverAhead options d (d + k) s ↔
      ∀ seq, d < seq → seq ≤ d + k → GivesUp options w seq → storedSeq s.table < seq := by
  constructor
  · intro hnever seq hlo hhi hgives
    rcases Nat.lt_or_ge (storedSeq s.table) seq with hlt | hge
    · exact hlt
    · exact absurd hgives ((h.passes seq hlo hhi).1 (hnever.reaches seq hlo hge))
  · intro hbehind
    refine ⟨fun seq hlo hle => ?_, fun seq hlo hhi hnot t hmax => ?_⟩
    · have hhi := Nat.le_trans hle h.stored_le
      rw [h.passes seq hlo hhi]
      intro hgives
      exact absurd hle (Nat.not_le.2 (hbehind seq hlo hhi hgives))
    · rw [h.passes seq hlo hhi, Classical.not_not] at hnot
      exact mem_processedSeqs.2 ⟨hbehind seq hlo hhi hnot, hmax⟩

/-- At every moment of every run with `-d`, the stored number has not run ahead of
    the work, exactly when no number is stored from the round on that gave up. -/
theorem processRounds_neverAhead_iff (options : Options) (w : RoundWorld) (blocksize : Nat)
    (table : ConfigTable) (t : Tables) :
    (∀ m ≤ getMaxDedupeSeq t, NeverAhead options (storedSeq table) m
      (processRounds options w blocksize m (.start blocksize table))) ↔
    ∀ seq, storedSeq table < seq → seq ≤ getMaxDedupeSeq t → GivesUp options w seq →
      ∀ later, seq ≤ later → later ≤ getMaxDedupeSeq t → ¬ w.Stores later := by
  have hmax := getMaxDedupeSeq_lt t
  have hafter : ∀ m ≤ getMaxDedupeSeq t,
      AfterRounds options w (storedSeq table) (m - storedSeq table)
        (processRounds options w blocksize m (.start blocksize table)) :=
    fun m hm => afterRounds_run table (by omega)
  constructor
  · intro hnever seq hlo hhi hgives later hle hlater
    have h := hafter _ (Nat.le_refl _)
    have hbound : storedSeq table + (getMaxDedupeSeq t - storedSeq table) = getMaxDedupeSeq t := by
      omega
    have hiff := h.neverAhead_iff
    rw [hbound] at hiff
    have hbehind := hiff.1 (hnever _ (Nat.le_refl _)) seq hlo hhi hgives
    exact h.stored_last later (by omega) (by omega)
  · intro hcond m hm
    have h := hafter m hm
    have hnever := h.neverAhead_iff.2 fun seq hlo hhi hgives => by
      by_contra hge
      have hle := h.stored_le
      have hstores := (h.stored_by (by omega)).2
      exact hcond seq hlo (by omega) hgives _ (by omega) (by omega) hstores
    refine ⟨hnever.reaches, fun seq hlo hhi => hnever.offered seq hlo (by omega)⟩

/-- A run over one batch whose load of identical files fails. -/
def failedLoad : RoundWorld where
  loadSameFiles := fun _ => .error 1
  loadExtentHashes := fun _ => .ok .empty
  loadBlockHashes := fun _ => .ok ()
  findAdditionalDedupe := fun _ res => .ok res
  synced := fun _ => 5

/-- The failed batch is stored as deduped. -/
theorem processRounds_failedLoad :
    ¬ ∀ (options : Options) (w : RoundWorld) (blocksize : Nat) (table : ConfigTable) (t : Tables),
      ∀ m ≤ getMaxDedupeSeq t, NeverAhead options (storedSeq table) m
        (processRounds options w blocksize m (.start blocksize table)) := by
  intro h
  have hnever := h { runDedupe := true } failedLoad 4096 .empty
    ⟨[⟨1, "a", 1, 0, 4096, 1, 1, none, none⟩], [], []⟩ 1 (by decide)
  have hthrough := hnever.reaches 1 (by decide) (by decide)
  exact (wentThrough_processRound { runDedupe := true } failedLoad 1).1 hthrough (.inl ⟨1, rfl⟩)

end Duperemove
