-- SUMMARY: A scan on a steady handle may be interrupted anywhere, and two workers that race for the handle.
import Duperemove.ScanRun.SharedHandle

/-!
# Safe interruptions

What a scan promises when it is interrupted is said of the machine with the shared
handle, so also of a point in the middle of a transaction. It holds in every state
of a run in which no worker replaces the handle inside the transaction of another
one, since that is a run of single transactions. Otherwise the insertions of a
worker may go to a handle that is in no transaction.
-/

namespace Duperemove

open Transaction (Answer Conn)

namespace SharedSys

variable {cfg : ScanConfig} {s s' : SharedSys}

/-! ## What an interrupted scan leaves -/

/-- The call is the commit of a transaction, and it succeeds. -/
def Commits (s : SharedSys) (call : StoreCall) (faults : Nat → Answer) : Prop :=
  call = .commit ∧ ∃ h, s.db = some h ∧ (Transaction.commit faults (s.conn h)).1 = true

/-- What a scan promises about the hashfile, at any point at which it may be
    interrupted. -/
structure SafeToInterrupt (cfg : ScanConfig) (s : SharedSys) : Prop where
  /-- A file without a digest has no hashes. -/
  no_half_stored : ∀ f ∈ s.tables.files, f.digest = none →
    (∀ b ∈ s.tables.blocks, b.fileid ≠ f.id) ∧ ∀ e ∈ s.tables.extents, e.fileid ≠ f.id
  block_fileid : ∀ b ∈ s.tables.blocks, ∃ f ∈ s.tables.files, f.id = b.fileid
  extent_fileid : ∀ e ∈ s.tables.extents, ∃ f ∈ s.tables.files, f.id = e.fileid
  ino_unique : (s.tables.files.map fun f => (f.ino, f.subvol)).Nodup
  filename_unique : (s.tables.files.map FileRow.filename).Nodup
  /-- A worker that gives up in front of its transaction, or cannot begin it, changes
      nothing. -/
  worker_gave_up : ∀ i r faults s', s.step cfg (.giveUp i) = some s' ∨
    s.step cfg (.begin i r faults) = some s' → s'.tables = s.tables
  /-- Inside its transaction the hashfile is what it was before. -/
  in_transaction : ∀ (i : Nat) job r before call,
    s.workers[i]? = some (.storing job r before call) → s.tables = before
  /-- So it stays, whatever is called and fails, unless the commit succeeds. -/
  worker_failed : ∀ (i : Nat) job r before call faults s',
    s.workers[i]? = some (.storing job r before call) → ¬ s.Commits call faults →
    s.step cfg (.call i faults) = some s' → s'.tables = before
  /-- After the next start every file has a digest. -/
  pruned : ∀ s', s.step cfg (.start true) = some s' →
    ∀ f ∈ s'.tables.files, f.digest.isSome = true
  /-- A file that is skipped at its first visit has a digest in the hashfile. -/
  skipped : ∀ v s', s.step cfg (.describe v true) = some s' → (v.ino, v.subvol) ∉ s.sys.visited →
    s'.sys.lister = .idle → ∃ f ∈ s.tables.files, f.ino = v.ino ∧ f.subvol = v.subvol ∧
      f.mtime = v.mtime ∧ f.size = v.size ∧ f.digest.isSome = true

/-- Neither giving up nor beginning a transaction touches the hashfile. -/
theorem tables_of_gave_up {i : Nat} {r : ScanCommit DigestBytes} {faults : Nat → Answer}
    (hstep : s.step cfg (.giveUp i) = some s' ∨ s.step cfg (.begin i r faults) = some s') :
    s'.tables = s.tables := by
  rcases hstep with hstep | hstep <;> simp only [step] at hstep
  · split at hstep
    · cases hstep
      rfl
    · cases hstep
  · split at hstep
    · cases hstep
    · cases hstep
      unfold SharedSys.begin
      cases s.db with
      | none => rfl
      | some k =>
        have hcases := Transaction.begin_cases faults (s.conn k)
        simp only
        generalize Transaction.begin faults (s.conn k) = b at hcases ⊢
        obtain ⟨ok, c⟩ := b
        rcases hcases with ⟨hok, hdurable⟩ | ⟨hok, hdurable, -⟩
        · simp only at hok hdurable
          subst hok
          exact hdurable
        · simp only at hok hdurable
          subst hok
          exact hdurable
    · cases hstep

/-- A call inside a transaction that is not a commit that succeeds. -/
theorem Serial.tables_of_call (hs : s.Serial) {i : Nat} {job : FileToScan}
    {r : ScanCommit DigestBytes} {before : Tables} {call : StoreCall} {faults : Nat → Answer}
    (hw : s.workers[i]? = some (.storing job r before call)) (hfail : ¬ s.Commits call faults)
    (hstep : s.step cfg (.call i faults) = some s') : s'.tables = before := by
  obtain ⟨rfl, -, -, hreached⟩ := hs.storing i job r before call hw
  simp only [step, hw] at hstep
  cases hstep
  unfold SharedSys.call
  cases hdb : s.db with
  | none => rfl
  | some k =>
    have hcases := StoreCall.run_cases (c := s.conn k) (hreached k hdb) faults (s.busy k)
    have hcommit : call = .commit →
        (call.run faults (s.busy k) job.fileid r (s.conn k)).1 ≠ true := by
      rintro rfl hok
      exact hfail ⟨rfl, k, hdb, hok⟩
    simp only
    generalize call.run faults (s.busy k) job.fileid r (s.conn k) = b at hcases hcommit ⊢
    obtain ⟨ok, c⟩ := b
    rcases hcases with ⟨call', hnext, hdurable, -⟩ | ⟨hnext, hdurable | ⟨hcall, hok, -⟩⟩
    · simp only at hnext
      rw [hnext]
      exact hdurable
    · simp only at hnext
      rw [hnext]
      exact hdurable
    · exact absurd hok (hcommit hcall)

/-- A scan may be interrupted at any point of a run in which no worker replaces the
    handle inside the transaction of another one: whatever the order of the lister's and
    the workers' steps, whichever calls fail, and however often the process was killed
    before. -/
theorem steadyRun_safeToInterrupt (db : Hashfile) (hdb : db.toTables.NoHalfStored)
    {events : List SharedEvent} (hrun : SteadyRun cfg (.stopped db.toTables) events s) :
    SafeToInterrupt cfg s := by
  obtain ⟨hinv, hserial⟩ := hrun.inv db.constraints hdb
  obtain ⟨hc, hn⟩ := hinv.tables_sound
  refine ⟨fun f hf hnull => ⟨hn.blocks f hf hnull, hn.extents f hf hnull⟩, hc.block_fileid,
    hc.extent_fileid, hc.ino_unique, hc.filename_unique, ?_, ?_, ?_, ?_, ?_⟩
  · intro i r faults s' hstep
    exact tables_of_gave_up hstep
  · intro i job r before call hw
    exact (hserial.storing i job r before call hw).1.symm
  · intro i job r before call faults s' hw hfail hstep
    exact hserial.tables_of_call hw hfail hstep
  · intro s' hstep f hf
    obtain ⟨sys, hsys, rfl⟩ := Option.map_eq_some_iff.1 hstep
    obtain ⟨-, rfl⟩ := scanStep_start hsys
    exact Tables.digest_of_mem_deleteUnscannedFiles hf
  · intro v s' hstep hfirst hidle
    obtain ⟨sys, hsys, rfl⟩ := Option.map_eq_some_iff.1 hstep
    exact digest_of_skipped hinv hsys hfirst hidle

end SharedSys

/-! ## Two workers -/

/-- No call fails. -/
def answersAll : Nat → Answer := fun _ => .done

/-- A scan of one file whose worker is killed behind its insertions. -/
def interruptedEvents : List SharedEvent :=
  [.start true, .describe newFile true, .store answersAll true, .spawn, .take 0 0 true,
    .openHandle 0 true, .assign 0, .begin 0 ⟨zeroDigest, [⟨0, zeroDigest⟩], [], 0⟩ answersAll,
    .call 0 answersAll, .kill]

/-- What it leaves: the row of the file, without hashes. -/
def interruptedTables : Tables := ⟨[⟨1, "/a", 10, 0, 4096, 5, 1, none, none⟩], [], []⟩

theorem steadyRun_safeToInterrupt_interruptedEvents :
    SharedSys.SteadyRun defaultConfig (.stopped emptyHashfile.toTables) interruptedEvents
      (.stopped interruptedTables) ∧
    SharedSys.SafeToInterrupt defaultConfig (.stopped interruptedTables) := by
  have hrun : SharedSys.SteadyRun defaultConfig (.stopped emptyHashfile.toTables)
      interruptedEvents (.stopped interruptedTables) :=
    .cons trivial rfl (.cons trivial rfl (.cons trivial rfl (.cons trivial rfl (.cons trivial rfl
      (.cons trivial rfl (.cons (fun _ _ _ => rfl) rfl (.cons trivial rfl (.cons trivial rfl
        (.cons trivial rfl (.nil _))))))))))
  have hnone : emptyHashfile.toTables.NoHalfStored :=
    ⟨by simp [emptyHashfile], by simp [emptyHashfile]⟩
  exact ⟨hrun, SharedSys.steadyRun_safeToInterrupt emptyHashfile hnone hrun⟩

/-- Another new file. -/
def otherFile : ListedFile := { newFile with path := "/b", ino := 11 }

/-- Two workers that found `db` unset. The second one sets it behind the
    `dbfile_begin_trans` of the first one, whose insertion goes to the new handle then. -/
def racingEvents : List SharedEvent :=
  [.start true, .describe newFile true, .store answersAll true, .describe otherFile true,
    .store answersAll true, .spawn, .spawn, .take 0 0 true, .take 1 0 true, .openHandle 0 true,
    .openHandle 1 true, .assign 0, .begin 0 ⟨zeroDigest, [⟨0, zeroDigest⟩], [], 0⟩ answersAll,
    .assign 1, .call 0 answersAll, .kill]

/-- What they leave: a block of a file without a digest. -/
def racingTables : Tables :=
  ⟨[⟨1, "/a", 10, 0, 4096, 5, 1, none, none⟩, ⟨2, "/b", 11, 0, 4096, 5, 1, none, none⟩], [],
    [⟨zeroDigest, 1, 0⟩]⟩

/-- The handle may be replaced inside a transaction, and then hashes are stored by
    halves. -/
theorem not_safeToInterrupt_racingEvents :
    SharedSys.run defaultConfig (.stopped emptyHashfile.toTables) racingEvents =
      some (.stopped racingTables) ∧
    ¬ SharedSys.SafeToInterrupt defaultConfig (.stopped racingTables) := by
  refine ⟨rfl, fun h => ?_⟩
  have hhalf := h.no_half_stored ⟨1, "/a", 10, 0, 4096, 5, 1, none, none⟩
    List.mem_cons_self rfl
  exact hhalf.1 ⟨zeroDigest, 1, 0⟩ List.mem_cons_self rfl

end Duperemove
