-- SUMMARY: The write lock around the transactions of a scan: which paths release it, and with what on the connection.
import Duperemove.ScanRun.Ownership

/-!
# The write lock

`__scan_file` and `csum_whole_file` take `dbfile_lock` for their transaction.
Here the lock is explicit: a guarded connection knows whether its thread holds the
lock, and what the connection looked like at each release. Without the lock these
are the transactions of the scan. The paths through them end with a rollback or a
commit and one release, up to a rename that fails, and the transaction is over by
then if SQLite ends it when it is told to.
-/

namespace Duperemove

open Transaction (Answer Conn)

/-! ## Guarded connections -/

/-- A connection, whether its thread holds the lock, and the connection at each
    release of the lock. -/
structure Guarded where
  conn : Conn Tables
  held : Bool
  releases : List (Conn Tables)

namespace Guarded

/-- `dbfile_lock`, once it returns. -/
def lock (g : Guarded) : Guarded := { g with held := true }

/-- `dbfile_unlock` -/
def unlock (g : Guarded) : Guarded :=
  { g with held := false, releases := g.releases ++ [g.conn] }

/-- A call on the connection. -/
def call (f : Conn Tables → Bool × Conn Tables) (g : Guarded) : Bool × Guarded :=
  ((f g.conn).1, { g with conn := (f g.conn).2 })

/-- A thread in front of the lock. -/
def outside (c : Conn Tables) : Guarded := ⟨c, false, []⟩

end Guarded

/-- The part of `__scan_file` from `dbfile_lock` on. The return values of
    `dbfile_begin_trans` and `dbfile_commit_trans` are not checked. -/
def scanFileLocked (faults : Nat → Answer) (v : ListedFile) (id : Nat) (renamed : Bool) (seq : Nat)
    (g : Guarded) : StoreRet × Guarded :=
  let g := (g.lock.call (Transaction.begin faults)).2
  match g.call (renameIfMoved faults v id renamed) with
  | (false, g) => (.renameFailed, g)
  | (true, g) =>
    let g := { g with conn := removeOldHashes faults v id g.conn }
    let fileid := g.conn.sees.newRowid
    match g.call (Transaction.exec faults fun t => some (t.writeFile (v.info seq))) with
    | (false, g) => (.notStored, (g.call (Transaction.rollback faults)).2.unlock)
    | (true, g) => (.stored fileid, (g.call (Transaction.commit faults)).2.unlock)

/-- The part of `csum_whole_file` from `dbfile_lock` on. -/
def csumLocked (faults : Nat → Answer) (fileid : Nat) (r : ScanCommit DigestBytes) (g : Guarded) :
    Bool × Guarded :=
  match g.lock.call (Transaction.begin faults) with
  | (false, g) => (false, g.unlock)
  | (true, g) =>
    match g.call (Transaction.execAll faults (blockStatements fileid r.blocks)) with
    | (false, g) => (false, (g.call (Transaction.rollback faults)).2.unlock)
    | (true, g) =>
      match g.call (Transaction.execAll faults (extentStatements fileid r.extents)) with
      | (false, g) => (false, (g.call (Transaction.rollback faults)).2.unlock)
      | (true, g) =>
        match g.call (Transaction.exec faults
            fun t => some (t.updateScannedFile r.digest r.flags fileid)) with
        | (false, g) => (false, (g.call (Transaction.rollback faults)).2.unlock)
        | (true, g) =>
          match g.call (Transaction.commit faults) with
          | (false, g) => (false, g.unlock)
          | (true, g) => (true, g.unlock)

/-- What `__scan_file` leaves: the lock in its hands after a rename that failed, and one
    release otherwise. -/
def Guarded.left : StoreRet → Conn Tables → Guarded
  | .renameFailed, c => ⟨c, true, []⟩
  | .notStored, c => ⟨c, false, [c]⟩
  | .stored _, c => ⟨c, false, [c]⟩

/-- Without the lock, this is the transaction of the lister. The lock is released once,
    at its end, unless the rename failed. -/
theorem scanFileLocked_eq (faults : Nat → Answer) (v : ListedFile) (id : Nat) (renamed : Bool)
    (seq : Nat) (c : Conn Tables) :
    scanFileLocked faults v id renamed seq (.outside c) =
      ((scanFileStore faults v id renamed seq c).1,
        .left (scanFileStore faults v id renamed seq c).1
          (scanFileStore faults v id renamed seq c).2) := by
  simp only [scanFileLocked, scanFileStore, storeFileInfo, Guarded.call, Guarded.lock,
    Guarded.outside]
  cases renameIfMoved faults v id renamed (Transaction.begin faults c).2 with
  | mk ok c₁ =>
    cases ok with
    | false => rfl
    | true =>
      simp only
      cases Transaction.exec faults (fun t => some (t.writeFile (v.info seq)))
          (removeOldHashes faults v id c₁) with
      | mk stored c₂ => cases stored <;> rfl

/-- Without the lock, this is the transaction of a worker. The lock is released once, at
    its end. -/
theorem csumLocked_eq (faults : Nat → Answer) (fileid : Nat) (r : ScanCommit DigestBytes)
    (c : Conn Tables) :
    csumLocked faults fileid r (.outside c) =
      ((csumCommit faults fileid r c).1,
        ⟨(csumCommit faults fileid r c).2, false, [(csumCommit faults fileid r c).2]⟩) := by
  simp only [csumLocked, csumCommit, Guarded.call, Guarded.lock, Guarded.outside]
  cases Transaction.begin faults c with
  | mk begun c₁ =>
    cases begun with
    | false => rfl
    | true =>
      simp only
      cases Transaction.execAll faults (blockStatements fileid r.blocks) c₁ with
      | mk blocks c₂ =>
        cases blocks with
        | false => rfl
        | true =>
          simp only
          cases Transaction.execAll faults (extentStatements fileid r.extents) c₂ with
          | mk extents c₃ =>
            cases extents with
            | false => rfl
            | true =>
              simp only
              cases Transaction.exec faults
                  (fun t => some (t.updateScannedFile r.digest r.flags fileid)) c₃ with
              | mk updated c₄ =>
                cases updated with
                | false => rfl
                | true =>
                  simp only
                  cases Transaction.commit faults c₄ with
                  | mk committed c₅ => cases committed <;> rfl

/-! ## Balanced paths -/

/-- The lock was released exactly once, and if the path began a transaction then none
    was open at that time. -/
structure Guarded.Balanced (begun : Bool) (g : Guarded) : Prop where
  released : g.held = false
  once : ∃ c, g.releases = [c] ∧ (begun = true → c.view = none)

/-- All statements of a worker's transaction. -/
def csumStatements (fileid : Nat) (r : ScanCommit DigestBytes) : List (Tables → Option Tables) :=
  blockStatements fileid r.blocks ++ (extentStatements fileid r.extents ++
    [fun t => some (t.updateScannedFile r.digest r.flags fileid)])

section Balanced

variable {faults : Nat → Answer} {c : Conn Tables}

/-- A worker's transaction runs its statements, and ends with a commit or a rollback. -/
theorem csumCommit_eq (faults : Nat → Answer) (fileid : Nat) (r : ScanCommit DigestBytes)
    (c : Conn Tables) (hbegin : (Transaction.begin faults c).1 = true) :
    (csumCommit faults fileid r c).2 =
      if (Transaction.execAll faults (csumStatements fileid r) (Transaction.begin faults c).2).1 then
        (Transaction.commit faults (Transaction.execAll faults (csumStatements fileid r)
          (Transaction.begin faults c).2).2).2
      else
        (Transaction.rollback faults (Transaction.execAll faults (csumStatements fileid r)
          (Transaction.begin faults c).2).2).2 := by
  rw [csumCommit, csumStatements, Transaction.execAll_append, Transaction.execAll_append,
    Transaction.execAll_singleton]
  cases hbegun : Transaction.begin faults c with
  | mk begun c₁ =>
    rw [hbegun] at hbegin
    simp only at hbegin
    subst hbegin
    simp only
    cases Transaction.execAll faults (blockStatements fileid r.blocks) c₁ with
    | mk blocks c₂ =>
      cases blocks with
      | false => rfl
      | true =>
        simp only [if_true]
        cases Transaction.execAll faults (extentStatements fileid r.extents) c₂ with
        | mk extents c₃ =>
          cases extents with
          | false => rfl
          | true =>
            simp only [if_true]
            cases Transaction.exec faults
                (fun t => some (t.updateScannedFile r.digest r.flags fileid)) c₃ with
            | mk updated c₄ => cases updated <;> rfl

/-- The end of a worker's transaction. -/
theorem csumCommit_view_iff (fileid : Nat) (r : ScanCommit DigestBytes)
    (hbegin : (Transaction.begin faults c).1 = true) :
    (csumCommit faults fileid r c).2.view = none ↔
      Transaction.Ends faults (c.calls + 1)
        (Transaction.execAll faults (csumStatements fileid r)
          (Transaction.begin faults c).2).2.calls := by
  have hstays := Transaction.execAll_stays faults (csumStatements fileid r)
    (Transaction.begin faults c).2
  rw [csumCommit_eq faults fileid r c hbegin, ← Transaction.begin_calls faults c,
    ← hstays.ends_iff (Transaction.begin_view faults c hbegin)]
  split
  · exact Transaction.commit_view_iff faults _
  · exact Transaction.rollback_view_iff faults _

theorem renameIfMoved_eq_true_iff (v : ListedFile) (id : Nat) (renamed : Bool) (c : Conn Tables) :
    (renameIfMoved faults v id renamed c).1 = true ↔
      (renamed = true → faults c.calls = .done) := by
  unfold renameIfMoved Transaction.exec Transaction.call
  cases renamed <;> cases faults c.calls <;> simp

theorem renameIfMoved_stays (faults : Nat → Answer) (v : ListedFile) (id : Nat) (renamed : Bool)
    (c : Conn Tables) : c.Stays faults (renameIfMoved faults v id renamed c).2 := by
  unfold renameIfMoved
  split
  · exact Transaction.exec_stays faults _ c
  · exact .refl faults c

theorem removeOldHashes_stays (faults : Nat → Answer) (v : ListedFile) (id : Nat)
    (c : Conn Tables) : c.Stays faults (removeOldHashes faults v id c) := by
  unfold removeOldHashes
  split
  · exact (Transaction.exec_stays faults _ c).trans (Transaction.exec_stays faults _ _)
  · exact .refl faults c

/-- The end of the lister's transaction is its second call after the old hashes. -/
theorem storeFileInfo_view_iff {c₀ : Conn Tables} (v : ListedFile) (seq : Nat)
    (hopen : c₀.view.isSome = true) (hstays : c₀.Stays faults c) :
    (storeFileInfo faults v seq c).2.view = none ↔
      Transaction.Ends faults c₀.calls (c.calls + 1) := by
  have hcalls := Transaction.exec_calls faults (fun t => some (t.writeFile (v.info seq))) c
  replace hstays := hstays.trans
    (Transaction.exec_stays faults (fun t => some (t.writeFile (v.info seq))) c)
  unfold storeFileInfo
  cases hexec : Transaction.exec faults (fun t => some (t.writeFile (v.info seq))) c with
  | mk stored c₁ =>
    rw [hexec] at hcalls hstays
    simp only at hcalls hstays
    rw [← hcalls, ← hstays.ends_iff hopen]
    cases stored with
    | false => exact Transaction.rollback_view_iff faults _
    | true => exact Transaction.commit_view_iff faults _

theorem storeFileInfo_ne_renameFailed (v : ListedFile) (seq : Nat) (c : Conn Tables) :
    (storeFileInfo faults v seq c).1 ≠ .renameFailed := by
  unfold storeFileInfo
  cases Transaction.exec faults (fun t => some (t.writeFile (v.info seq))) c with
  | mk stored c₁ => cases stored <;> simp

/-- Which paths of the lister leave no transaction of theirs open. -/
theorem scanFileStore_view_iff (v : ListedFile) (id : Nat) {renamed : Bool} (seq : Nat)
    (hbegin : (Transaction.begin faults c).1 = true)
    (hrename : renamed = true → faults (c.calls + 1) = .done) :
    (scanFileStore faults v id renamed seq c).2.view = none ↔
      Transaction.Ends faults (c.calls + 1) (c.calls + lastCall renamed) := by
  have hopen := Transaction.begin_view faults c hbegin
  have hcalls := renameIfMoved_calls faults v id renamed (Transaction.begin faults c).2
  have hok := @renameIfMoved_eq_true_iff faults v id renamed
    (Transaction.begin faults c).2
  have hstays := renameIfMoved_stays faults v id renamed (Transaction.begin faults c).2
  rw [Transaction.begin_calls] at hcalls hok
  replace hok := hok.2 hrename
  unfold scanFileStore
  generalize renameIfMoved faults v id renamed (Transaction.begin faults c).2 = b at *
  obtain ⟨ok, c₁⟩ := b
  simp only at hok hstays hcalls
  subst hok
  have hend : (removeOldHashes faults v id c₁).calls + 1 = c.calls + lastCall renamed := by
    rw [removeOldHashes_calls, hcalls, lastCall]
    cases renamed <;> rfl
  rw [← hend, ← Transaction.begin_calls faults c]
  exact storeFileInfo_view_iff v seq hopen (hstays.trans (removeOldHashes_stays faults v id c₁))

theorem scanFileStore_eq_renameFailed_iff (v : ListedFile) (id : Nat) {renamed : Bool} (seq : Nat) :
    (scanFileStore faults v id renamed seq c).1 = .renameFailed ↔
      ¬ (renamed = true → faults (c.calls + 1) = .done) := by
  have hok := @renameIfMoved_eq_true_iff faults v id renamed
    (Transaction.begin faults c).2
  rw [Transaction.begin_calls] at hok
  rw [← hok]
  unfold scanFileStore
  cases renameIfMoved faults v id renamed (Transaction.begin faults c).2 with
  | mk ok c₁ =>
    cases ok with
    | false => simp
    | true => simpa using storeFileInfo_ne_renameFailed v seq _

/-- A path that releases the lock at its end is balanced if it ended its transaction. -/
theorem released_balanced_iff (begun : Bool) (c : Conn Tables) :
    (⟨c, false, [c]⟩ : Guarded).Balanced begun ↔ (begun = true → c.view = none) := by
  refine ⟨fun h => ?_, fun h => ⟨rfl, c, rfl, h⟩⟩
  obtain ⟨c', hc, hview⟩ := h.once
  cases hc
  exact hview

theorem left_balanced_iff (begun : Bool) (ret : StoreRet) (c : Conn Tables) :
    (Guarded.left ret c).Balanced begun ↔
      ret ≠ .renameFailed ∧ (begun = true → c.view = none) := by
  cases ret with
  | renameFailed => exact ⟨fun h => (by cases h.released), fun h => absurd rfl h.1⟩
  | notStored => simpa [Guarded.left] using released_balanced_iff begun c
  | stored fileid => simpa [Guarded.left] using released_balanced_iff begun c

/-- The lock and the transactions are balanced exactly if a rename that `__scan_file`
    asks for succeeds, and SQLite ends the transactions that were begun: the call that
    ends one, a commit or the rollback after a statement that failed, does not fail and
    leave the transaction open, or SQLite rolled it back at an earlier call. -/
theorem locked_balanced_iff (faults : Nat → Answer) (v : ListedFile) (id : Nat) (renamed : Bool)
    (seq fileid : Nat) (r : ScanCommit DigestBytes) (c : Conn Tables) :
    ((scanFileLocked faults v id renamed seq (.outside c)).2.Balanced
        (Transaction.begin faults c).1 ↔
      (renamed = true → faults (c.calls + 1) = .done) ∧
      ((Transaction.begin faults c).1 = true →
        Transaction.Ends faults (c.calls + 1) (c.calls + lastCall renamed))) ∧
    ((csumLocked faults fileid r (.outside c)).2.Balanced (Transaction.begin faults c).1 ↔
      ((Transaction.begin faults c).1 = true →
        Transaction.Ends faults (c.calls + 1)
          (Transaction.execAll faults (csumStatements fileid r)
            (Transaction.begin faults c).2).2.calls)) := by
  constructor
  · rw [scanFileLocked_eq, left_balanced_iff, Ne, scanFileStore_eq_renameFailed_iff, not_not]
    refine and_congr_right fun hrename => forall_congr' fun hbegin => ?_
    exact scanFileStore_view_iff v id seq hbegin hrename
  · rw [csumLocked_eq, released_balanced_iff]
    exact forall_congr' fun hbegin => csumCommit_view_iff fileid r hbegin

end Balanced

/-- A file that was moved from `/old` to `/new`. -/
def renamedFile : ListedFile where
  path := "/new"
  ino := 10
  subvol := 0
  size := 8192
  mtime := 1
  gone := fun path => path == "/old"
  size_pos := Nat.succ_pos 8191

/-- A hashfile that knows the file under its old path. -/
def renamedConn : Conn Tables :=
  ⟨⟨[⟨1, "/old", 10, 0, 8192, 1, 1, some zeroDigest, some 0⟩], [], []⟩, none, 0⟩

/-- SQLite refuses one call, and leaves what is open as it is. -/
def refuses (n : Nat) : Nat → Answer := fun call => if call = n then .failed else .done

/-- A rename that fails leaves `__scan_file` with the lock, and a commit that is refused
    leaves the transactions of both functions open when the lock is released. -/
theorem not_balanced_renamedFile :
    ¬ (scanFileLocked (refuses 1) renamedFile 1 true 1 (.outside renamedConn)).2.Balanced
      (Transaction.begin (refuses 1) renamedConn).1 ∧
    ¬ (scanFileLocked (refuses 5) renamedFile 1 true 1 (.outside renamedConn)).2.Balanced
      (Transaction.begin (refuses 5) renamedConn).1 ∧
    ¬ (csumLocked (refuses 2) 1 ⟨zeroDigest, [], [], 0⟩
      (.outside renamedConn)).2.Balanced (Transaction.begin (refuses 2) renamedConn).1 := by
  refine ⟨?_, ?_, ?_⟩
  · rw [scanFileLocked_eq, left_balanced_iff]
    decide +kernel
  · rw [scanFileLocked_eq, left_balanced_iff]
    decide +kernel
  · rw [csumLocked_eq, released_balanced_iff]
    decide +kernel

end Duperemove
