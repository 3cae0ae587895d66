-- SUMMARY: To which row of the hashfile a worker's hashes go, and when that is the row its job was scheduled for.
import Duperemove.ScanRun.Interrupt

/-!
# Ownership of hashes

A scheduled job carries the id of its row and nothing else. SQLite gives a new row
the id behind the largest one, so an id comes back when the row with the largest
id is deleted. `WRITE_FILE` chooses the new id before it deletes, and the id it
chooses is the largest one then. `RENAME_FILE` deletes the row that has the new
name, whatever its id is. And a row whose commit failed goes away with a later
rollback. The machine of `ScanRun.Model` is extended by the number of the call that
inserted each row and by the number of the call that scheduled each job. They are
never read by a step.
-/

namespace Duperemove

open Transaction (Answer Conn)

/-! ## The machine with its history -/

/-- A scan with its history: how many calls of `dbfile_store_file_info` were made, which
    of them inserted the row with an id, and which of them scheduled the jobs of the
    queue. -/
structure OwnedSys where
  sys : ScanSys
  calls : Nat
  origin : Nat → Nat
  tickets : List Nat

/-- The id that the next step of the lister gives out. -/
def storedId (s : ScanSys) (faults : Nat → Answer) : Option Nat :=
  match s.lister with
  | .described v id renamed seq =>
    match (scanFileStore faults v id renamed seq s.conn).1 with
    | .stored fileid => some fileid
    | .notStored | .renameFailed => none
  | _ => none

namespace OwnedSys

/-- The rows of a hashfile that no process has open come from earlier calls. -/
def init (t : Tables) : OwnedSys := ⟨.stopped t, 0, fun _ => 0, []⟩

/-- Write down a step that leads to `sys`. -/
def record (o : OwnedSys) (event : ScanEvent) (sys : ScanSys) : OwnedSys :=
  match event with
  | .start _ | .kill => { o with sys := sys, tickets := [] }
  | .describe _ _ => { o with sys := sys }
  | .worker i _ _ => { o with sys := sys, tickets := o.tickets.eraseIdx i }
  | .store faults pushed =>
    let call := o.calls + 1
    match storedId o.sys faults with
    | none => { o with sys := sys, calls := call }
    | some fileid =>
      { sys := sys
        calls := call
        origin := fun id => if id = fileid then call else o.origin id
        tickets := if pushed then o.tickets ++ [call] else o.tickets }

def step (cfg : ScanConfig) (o : OwnedSys) (event : ScanEvent) : Option OwnedSys :=
  (scanStep cfg o.sys event).map (o.record event)

end OwnedSys

/-- The rows that are in `t'` and not in `t` are rows of the files for which `P` holds. -/
structure AttachesTo (t t' : Tables) (P : Nat → Prop) : Prop where
  files : ∀ f ∈ t'.files, f ∉ t.files → P f.id
  blocks : ∀ b ∈ t'.blocks, b ∉ t.blocks → P b.fileid
  extents : ∀ e ∈ t'.extents, e ∉ t.extents → P e.fileid

/-! ## The condition -/

/-- Which call of its transaction is the lister's last one, the first being 0. -/
def lastCall (renamed : Bool) : Nat := if renamed then 5 else 4

/-- A rename to the path of `v` leaves the row of a file in place. -/
def Survives (v : ListedFile) (id : Nat) (renamed : Bool) (f : FileRow) : Prop :=
  renamed = true → f.filename ≠ v.path ∨ f.id = id

/-- SQLite ends the lister's transaction when it is told to, and a rename leaves a row
    whose id is at least that of every scheduled job. -/
def StoresSafely (s : ScanSys) : ScanEvent → Prop
  | .store faults _ => ∀ v id renamed seq, s.lister = .described v id renamed seq →
      faults (s.conn.calls + lastCall renamed) = .done ∧
      (renamed = true → ∀ job ∈ s.queue,
        ∃ f ∈ s.tables.files, job.fileid ≤ f.id ∧ Survives v id renamed f)
  | _ => True

/-- A run in which every step of the lister is safe. -/
inductive SafeRun (cfg : ScanConfig) : OwnedSys → List ScanEvent → OwnedSys → Prop where
  | nil (o : OwnedSys) : SafeRun cfg o [] o
  | cons {o o₁ o' : OwnedSys} {event : ScanEvent} {events : List ScanEvent}
      (hsafe : StoresSafely o.sys event) (hstep : o.step cfg event = some o₁)
      (hrest : SafeRun cfg o₁ events o') : SafeRun cfg o (event :: events) o'

/-! ## Rows that survive -/

/-- The rows of `u` are rows of `t`, maybe with other contents, and those for which
    `keeps` holds are all there. -/
structure RowsFrom (keeps : FileRow → Prop) (t u : Tables) : Prop where
  constraints : u.Constraints
  old : ∀ f ∈ u.files, ∃ g ∈ t.files, g.id = f.id
  kept : ∀ g ∈ t.files, keeps g → ∃ f ∈ u.files, f.id = g.id

namespace RowsFrom

variable {keeps : FileRow → Prop} {t u : Tables}

theorem refl (hc : t.Constraints) (keeps : FileRow → Prop) : RowsFrom keeps t t :=
  ⟨hc, fun f hf => ⟨f, hf, rfl⟩, fun f hf _ => ⟨f, hf, rfl⟩⟩

theorem removeBlockHashes (h : RowsFrom keeps t u) (fileid : Nat) :
    RowsFrom keeps t (u.removeBlockHashes fileid) :=
  ⟨h.constraints.removeBlockHashes fileid, h.old, h.kept⟩

theorem removeExtentHashes (h : RowsFrom keeps t u) (fileid : Nat) :
    RowsFrom keeps t (u.removeExtentHashes fileid) :=
  ⟨h.constraints.removeExtentHashes fileid, h.old, h.kept⟩

/-- A rename keeps the row it renames and all rows with another name. -/
theorem renameFile (hc : t.Constraints) (path : String) (id : Nat)
    (hkeeps : ∀ f, keeps f → f.filename ≠ path ∨ f.id = id) :
    RowsFrom keeps t (t.renameFile path id) where
  constraints := hc.renameFile path id
  old := by
    intro f hf
    obtain ⟨g, hg, rfl | ⟨-, rfl⟩⟩ := Tables.exists_of_mem_renameFile hf
    · exact ⟨f, hg, rfl⟩
    · exact ⟨g, hg, rfl⟩
  kept := by
    intro f hf hkeep
    unfold Tables.renameFile
    split
    · refine ⟨_, List.mem_map_of_mem (Tables.mem_deleteFiles_files.2 ⟨hf, ?_⟩), ?_⟩
      · rcases hkeeps f hkeep with hname | hid
        · simp [hname]
        · simp [hid]
      · split <;> rfl
    · exact ⟨f, hf, rfl⟩

/-- A worker changes the contents of a row. -/
theorem updateScannedFile {fileid : Nat} (hadded : AddedHashes fileid t u) (hc : t.Constraints)
    (digest : DigestBytes) (flags : Nat) :
    RowsFrom keeps t (u.updateScannedFile digest flags fileid) where
  constraints := (hadded.constraints hc).updateScannedFile digest flags fileid
  old := by
    intro f hf
    obtain ⟨g, hg, ⟨-, rfl⟩ | ⟨-, rfl⟩⟩ := Tables.exists_of_mem_updateScannedFile hf
    · exact ⟨f, hadded.files ▸ hg, rfl⟩
    · exact ⟨g, hadded.files ▸ hg, rfl⟩
  kept := by
    intro g hg _
    refine ⟨_, List.mem_map_of_mem (hadded.files ▸ hg), ?_⟩
    split <;> rfl

end RowsFrom

/-! ## The transaction of the lister -/

section Lister

variable {v : ListedFile} {c : Conn Tables} {faults : Nat → Answer} {id : Nat}

theorem renameIfMoved_calls (faults : Nat → Answer) (v : ListedFile) (id : Nat) (renamed : Bool)
    (c : Conn Tables) :
    (renameIfMoved faults v id renamed c).2.calls = c.calls + if renamed then 1 else 0 := by
  cases renamed with
  | false => rfl
  | true =>
    rw [renameIfMoved, if_pos rfl, Transaction.exec_calls]
    rfl

theorem removeOldHashes_calls (faults : Nat → Answer) (v : ListedFile) (id : Nat)
    (c : Conn Tables) : (removeOldHashes faults v id c).calls = c.calls + 2 := by
  have hsize : v.mtime ≠ 0 ∨ v.size ≠ 0 := .inr (Nat.ne_of_gt v.size_pos)
  simp only [removeOldHashes, if_pos hsize, Transaction.exec_calls]

/-- The insertion, in or outside of a transaction, when the last call succeeds. -/
theorem storeFileInfo_cases (v : ListedFile) (seq : Nat) (hend : faults (c.calls + 1) = .done) :
    storeFileInfo faults v seq c = (.notStored, ⟨c.durable, none, c.calls + 2⟩) ∨
    storeFileInfo faults v seq c =
      (.stored c.sees.newRowid, ⟨c.sees.writeFile (v.info seq), none, c.calls + 2⟩) := by
  obtain ⟨durable, view, calls⟩ := c
  simp only at hend
  cases hfault : faults calls with
  | done =>
    right
    cases view <;> simp [storeFileInfo, Transaction.exec, Transaction.commit, Transaction.call,
      Conn.count, Conn.write, Conn.sees, hfault, hend]
  | failed =>
    left
    cases view <;> simp [storeFileInfo, Transaction.exec, Transaction.rollback, Transaction.call,
      Conn.count, hfault, hend]
  | rolledBack =>
    left
    simp [storeFileInfo, Transaction.exec, Transaction.rollback, Transaction.call, Conn.count,
      hfault, hend]

/-- A rename that fails has no effect, and one that succeeds deletes the rows that have
    the new name. -/
theorem renameIfMoved_cases {t : Tables} (hc : t.Constraints) (h : c.All (· = t))
    (faults : Nat → Answer) (v : ListedFile) (id : Nat) (renamed : Bool) :
    (renameIfMoved faults v id renamed c).2.All
      (RowsFrom (Survives v id renamed) t) ∧
    ((renameIfMoved faults v id renamed c).1 = false →
      (renameIfMoved faults v id renamed c).2.durable = t) := by
  have hrefl : ∀ u, u = t →
      RowsFrom (Survives v id renamed) t u := by
    rintro _ rfl
    exact .refl hc _
  have hall : c.All (RowsFrom (Survives v id renamed) t) :=
    ⟨hrefl _ h.durable, fun u hu => hrefl u (h.view u hu)⟩
  unfold renameIfMoved
  split
  · rename_i hrenamed
    have hrows : RowsFrom (Survives v id renamed) t (t.renameFile v.path id) :=
      .renameFile hc v.path id fun f hf => hf hrenamed
    unfold Transaction.exec
    rcases Transaction.call_cases faults _ c with ⟨-, hfail, heq⟩ | ⟨-, heq⟩
    · rw [heq]
      refine ⟨⟨hall.durable, fun u hu => hall.view u ?_⟩, fun _ => h.durable⟩
      simp only at hu
      split at hu
      · exact hu
      · cases hu
    · rw [heq]
      simp only [h.count.sees]
      refine ⟨?_, fun hfalse => by cases hfalse⟩
      unfold Conn.write
      split
      · exact ⟨hrows, hall.count.view⟩
      · refine ⟨hall.durable, ?_⟩
        rintro _ ⟨⟩
        exact hrows
  · exact ⟨hall, fun hfalse => by cases hfalse⟩

/-- What the lister leaves when the last call of its transaction succeeds: the tables as
    they were after a rename that failed, or a new row at most. -/
theorem scanFileStore_cases {t : Tables} (hc : t.Constraints) {calls : Nat} {renamed : Bool}
    (hend : faults (calls + lastCall renamed) = .done) (v : ListedFile) (id seq : Nat) :
    (∃ c, scanFileStore faults v id renamed seq ⟨t, none, calls⟩ = (.renameFailed, c) ∧
      c.durable = t) ∨
    ∃ u n, RowsFrom (Survives v id renamed) t u ∧
      (scanFileStore faults v id renamed seq ⟨t, none, calls⟩ = (.notStored, ⟨u, none, n⟩) ∨
        scanFileStore faults v id renamed seq ⟨t, none, calls⟩ =
          (.stored u.newRowid, ⟨u.writeFile (v.info seq), none, n⟩)) := by
  have hbegin : (Transaction.begin faults ⟨t, none, calls⟩).2.All (· = t) :=
    Transaction.all_begin faults ⟨rfl, fun _ hview => by cases hview⟩
  have hcalls := renameIfMoved_calls faults v id renamed
    (Transaction.begin faults ⟨t, none, calls⟩).2
  rw [Transaction.begin_calls] at hcalls
  obtain ⟨hall, hfailed⟩ := renameIfMoved_cases hc hbegin faults v id renamed
  unfold scanFileStore
  generalize renameIfMoved faults v id renamed (Transaction.begin faults ⟨t, none, calls⟩).2 = b at *
  obtain ⟨ok, c₁⟩ := b
  cases ok with
  | false => exact .inl ⟨c₁, rfl, hfailed rfl⟩
  | true =>
    right
    have hremoved := removeOldHashes_all (v := v) hall
      (fun u hu => RowsFrom.removeBlockHashes hu id)
      (fun u hu => RowsFrom.removeExtentHashes hu id) faults
    have hlast : faults ((removeOldHashes faults v id c₁).calls + 1) = .done := by
      rw [removeOldHashes_calls, ← hend]
      congr 1
      simp only at hcalls
      rw [hcalls, lastCall]
      cases renamed <;> rfl
    rcases storeFileInfo_cases v seq hlast with heq | heq
    · exact ⟨_, _, hremoved.durable, .inl heq⟩
    · exact ⟨_, _, hremoved.sees, .inr heq⟩

end Lister

/-! ## The invariant -/

/-- No transaction is open while the lister lives, and the row with the id of a scheduled
    job, if there is one, is the row of the call that scheduled the job. -/
structure OwnedSys.Owned (o : OwnedSys) : Prop where
  closed : o.sys.lister = .stuck ∨ o.sys.conn.view = none
  constraints : o.sys.tables.Constraints
  length : o.tickets.length = o.sys.queue.length
  bounded : ∀ job ∈ o.sys.queue, ∃ f ∈ o.sys.tables.files, job.fileid ≤ f.id
  owner : ∀ (i : Nat) job call, o.sys.queue[i]? = some job → o.tickets[i]? = some call →
    ∀ f ∈ o.sys.tables.files, f.id = job.fileid → o.origin f.id = call

namespace OwnedSys

variable {cfg : ScanConfig} {o o' : OwnedSys}

theorem Owned.view_eq_none (h : o.Owned) (hlister : o.sys.lister ≠ .stuck) :
    o.sys.conn.view = none :=
  h.closed.resolve_left hlister

/-- Without jobs nothing can go to the wrong row. -/
theorem owned_of_no_jobs (sys : ScanSys) (hclosed : sys.conn.view = none)
    (hc : sys.tables.Constraints) (hqueue : sys.queue = []) (calls : Nat) (origin : Nat → Nat) :
    Owned ⟨sys, calls, origin, []⟩ where
  closed := .inr hclosed
  constraints := hc
  length := by simp [hqueue]
  bounded := by simp [hqueue]
  owner := by simp

theorem owned_init (db : Hashfile) : (init db.toTables).Owned :=
  owned_of_no_jobs (.stopped db.toTables) rfl db.constraints rfl 0 fun _ => 0

/-- A step that inserts no row and schedules no job keeps the invariant, as long as for
    every job a row survives whose id is at least that of the job. -/
theorem Owned.of_rows (h : o.Owned) {keeps : FileRow → Prop}
    (hrows : RowsFrom keeps o.sys.tables o'.sys.tables)
    (hkeeps : ∀ job ∈ o.sys.queue, ∃ f ∈ o.sys.tables.files, job.fileid ≤ f.id ∧ keeps f)
    (hclosed : o'.sys.lister = .stuck ∨ o'.sys.conn.view = none) (horigin : o'.origin = o.origin)
    (hlength : o'.tickets.length = o'.sys.queue.length)
    (hjobs : ∀ (i : Nat) job call, o'.sys.queue[i]? = some job → o'.tickets[i]? = some call →
      ∃ j : Nat, o.sys.queue[j]? = some job ∧ o.tickets[j]? = some call) : o'.Owned where
  closed := hclosed
  constraints := hrows.constraints
  length := hlength
  bounded := by
    intro job hjob
    obtain ⟨i, hi⟩ := List.mem_iff_getElem?.1 hjob
    have hlt : i < o'.tickets.length := by
      rw [hlength]
      exact (List.getElem?_eq_some_iff.1 hi).1
    obtain ⟨j, hj, -⟩ := hjobs i job _ hi (List.getElem?_eq_getElem hlt)
    obtain ⟨g, hg, hle, hkeep⟩ := hkeeps job (List.mem_of_getElem? hj)
    obtain ⟨f, hf, hid⟩ := hrows.kept g hg hkeep
    exact ⟨f, hf, hid ▸ hle⟩
  owner := by
    intro i job call hjob hcall f hf hid
    obtain ⟨j, hjob, hcall⟩ := hjobs i job call hjob hcall
    obtain ⟨g, hg, hgid⟩ := hrows.old f hf
    rw [horigin, ← hgid]
    exact h.owner j job call hjob hcall g hg (hgid.trans hid)

/-- The lister inserts a row. Its id is larger than that of any job, so the jobs that are
    scheduled still find their own row or none. -/
theorem Owned.inserted (h : o.Owned) {keeps : FileRow → Prop} {t : Tables}
    (hrows : RowsFrom keeps o.sys.tables t)
    (hkeeps : ∀ job ∈ o.sys.queue, ∃ f ∈ o.sys.tables.files, job.fileid ≤ f.id ∧ keeps f)
    (info : FileInfo) (lister : Lister) (calls : Nat) :
    Owned { sys := { o.sys with conn := ⟨t.writeFile info, none, calls⟩, lister := lister }
            calls := o.calls + 1
            origin := fun id => if id = t.newRowid then o.calls + 1 else o.origin id
            tickets := o.tickets } := by
  have hlt : ∀ job ∈ o.sys.queue, job.fileid < t.newRowid := by
    intro job hjob
    obtain ⟨g, hg, hle, hkeep⟩ := hkeeps job hjob
    obtain ⟨f, hf, hid⟩ := hrows.kept g hg hkeep
    exact Nat.lt_of_le_of_lt (hid ▸ hle) (Tables.lt_newRowid hf)
  refine ⟨.inr rfl, hrows.constraints.writeFile _, h.length, ?_, ?_⟩
  · intro job hjob
    exact ⟨_, Tables.mem_writeFile_files.2 (.inr rfl), Nat.le_of_lt (hlt job hjob)⟩
  · intro i job call hjob hcall f hf hid
    have hne := hlt job (List.mem_of_getElem? hjob)
    rcases Tables.mem_writeFile_files.1 hf with ⟨hf, -⟩ | rfl
    · obtain ⟨g, hg, hgid⟩ := hrows.old f hf
      simp only
      rw [if_neg (by omega), ← hgid]
      exact h.owner i job call hjob hcall g hg (hgid.trans hid)
    · simp only at hid
      omega

/-- A job is scheduled for the row that was just inserted. -/
theorem Owned.schedule (h : o.Owned) {job : FileToScan}
    (hrow : ∃ f ∈ o.sys.tables.files, f.id = job.fileid) :
    Owned { o with
      sys := { o.sys with queue := o.sys.queue ++ [job] }
      tickets := o.tickets ++ [o.origin job.fileid] } := by
  refine ⟨h.closed, h.constraints, ?_, ?_, ?_⟩
  · rw [List.length_append, List.length_append, h.length]
    rfl
  · intro job' hjob'
    rcases List.mem_append.1 hjob' with hjob' | hjob'
    · exact h.bounded job' hjob'
    · obtain ⟨f, hf, hid⟩ := hrow
      rw [List.mem_singleton.1 hjob']
      exact ⟨f, hf, Nat.le_of_eq hid.symm⟩
  · intro i job' call hjob' hcall f hf hid
    simp only at hjob' hcall
    by_cases hi : i < o.sys.queue.length
    · rw [List.getElem?_append_left hi] at hjob'
      rw [List.getElem?_append_left (by rw [h.length]; exact hi)] at hcall
      exact h.owner i job' call hjob' hcall f hf hid
    · rw [List.getElem?_append_right (by omega)] at hjob'
      rw [List.getElem?_append_right (by rw [h.length]; omega)] at hcall
      rw [List.mem_singleton.1 (List.mem_of_getElem? hjob')] at hid
      rw [List.mem_singleton.1 (List.mem_of_getElem? hcall), hid]

/-- A job that is done leaves the queue together with its ticket. -/
theorem Owned.erased (h : o.Owned) (i : Nat) :
    (o.tickets.eraseIdx i).length = (o.sys.queue.eraseIdx i).length ∧
    ∀ (k : Nat) job call, (o.sys.queue.eraseIdx i)[k]? = some job →
      (o.tickets.eraseIdx i)[k]? = some call →
        ∃ j : Nat, o.sys.queue[j]? = some job ∧ o.tickets[j]? = some call := by
  constructor
  · rw [List.length_eraseIdx, List.length_eraseIdx, h.length]
  · intro k job call hjob hcall
    rw [List.getElem?_eraseIdx] at hjob hcall
    split at hjob
    · rename_i hk
      rw [if_pos hk] at hcall
      exact ⟨k, hjob, hcall⟩
    · rename_i hk
      rw [if_neg hk] at hcall
      exact ⟨k + 1, hjob, hcall⟩

/-! ## Steps and runs -/

/-- What a worker does: its job leaves the queue, and it changes nothing or adds hashes
    to the file of the job. -/
theorem worker_step {i : Nat} {result : Option (ScanCommit DigestBytes)} {faults : Nat → Answer}
    (hstep : o.step cfg (.worker i result faults) = some o') :
    ∃ job, o.sys.queue[i]? = some job ∧ o'.sys.queue = o.sys.queue.eraseIdx i ∧
      o'.tickets = o.tickets.eraseIdx i ∧ o'.origin = o.origin ∧
      o'.sys.lister = o.sys.lister ∧ o'.sys.conn.view = o.sys.conn.view ∧
      (o'.sys.tables = o.sys.tables ∨ ∃ t digest flags, AddedHashes job.fileid o.sys.tables t ∧
        o'.sys.tables = t.updateScannedFile digest flags job.fileid) := by
  obtain ⟨s', hscan, rfl⟩ := Option.map_eq_some_iff.1 hstep
  obtain ⟨job, hjob, ⟨-, rfl⟩ | ⟨r, -, -, rfl⟩⟩ := scanStep_worker hscan
  · exact ⟨job, hjob, rfl, rfl, rfl, rfl, rfl, .inl rfl⟩
  · obtain ⟨hview, hd⟩ := workerCommit_cases o.sys.conn faults job.fileid r
    refine ⟨job, hjob, rfl, rfl, rfl, rfl, hview, ?_⟩
    rcases hd with hd | ⟨t, ht, hd⟩
    · exact .inl hd
    · exact .inr ⟨t, r.digest, r.flags, ht, hd⟩

/-- The form of `bounded` for a step that keeps every row. -/
theorem Owned.all_kept (h : o.Owned) : ∀ job ∈ o.sys.queue,
    ∃ f ∈ o.sys.tables.files, job.fileid ≤ f.id ∧ (fun _ : FileRow => True) f := by
  intro job hjob
  obtain ⟨f, hf, hle⟩ := h.bounded job hjob
  exact ⟨f, hf, hle, trivial⟩

theorem Owned.worker (h : o.Owned) {i : Nat} {result : Option (ScanCommit DigestBytes)}
    {faults : Nat → Answer} (hstep : o.step cfg (.worker i result faults) = some o') : o'.Owned := by
  obtain ⟨job, -, hqueue, htickets, horigin, hlister, hview, htables⟩ := worker_step hstep
  obtain ⟨hlength, hjobs⟩ := h.erased i
  have hrows : RowsFrom (fun _ => True) o.sys.tables o'.sys.tables := by
    rcases htables with heq | ⟨t, digest, flags, hadded, heq⟩
    · rw [heq]
      exact .refl h.constraints _
    · rw [heq]
      exact .updateScannedFile hadded h.constraints digest flags
  refine h.of_rows hrows h.all_kept ?_ horigin ?_ ?_
  · rw [hlister, hview]
    exact h.closed
  · rw [htickets, hqueue]
    exact hlength
  · rw [htickets, hqueue]
    exact hjobs

theorem Owned.describe (h : o.Owned) {v : ListedFile} {ok : Bool}
    (hstep : o.step cfg (.describe v ok) = some o') : o'.Owned := by
  obtain ⟨s', hscan, rfl⟩ := Option.map_eq_some_iff.1 hstep
  obtain ⟨-, hidle, rfl⟩ := scanStep_describe hscan
  have hview := h.view_eq_none (by rw [hidle]; rintro ⟨⟩)
  have hsame : (describeFile cfg o.sys v ok).conn = o.sys.conn ∧
      (describeFile cfg o.sys v ok).queue = o.sys.queue := by
    rcases describeFile_cases cfg o.sys v ok with ⟨heq, -⟩ | ⟨heq, -⟩
    · rw [heq]
      exact ⟨rfl, rfl⟩
    · rw [heq]
      exact ⟨rfl, rfl⟩
  refine h.of_rows ?_ h.all_kept ?_ rfl ?_ ?_
  · simp only [record, ScanSys.tables, hsame.1]
    exact .refl h.constraints _
  · simp only [record, hsame.1]
    exact .inr hview
  · simp only [record, hsame.2]
    exact h.length
  · simp only [record, hsame.2]
    exact fun i job call hjob hcall => ⟨i, hjob, hcall⟩

theorem Owned.store (h : o.Owned) {faults : Nat → Answer} {pushed : Bool}
    (hsafe : StoresSafely o.sys (.store faults pushed))
    (hstep : o.step cfg (.store faults pushed) = some o') : o'.Owned := by
  obtain ⟨s', hscan, rfl⟩ := Option.map_eq_some_iff.1 hstep
  obtain ⟨v, id, renamed, seq, hlister, ret, lister, queue, hret, rfl, hcases⟩ :=
    scanStep_store hscan
  obtain ⟨hend, hrenamed⟩ := hsafe v id renamed seq hlister
  have hkeeps : ∀ job ∈ o.sys.queue,
      ∃ f ∈ o.sys.tables.files, job.fileid ≤ f.id ∧ Survives v id renamed f := by
    intro job hjob
    by_cases hr : renamed = true
    · exact hrenamed hr job hjob
    · obtain ⟨f, hf, hle⟩ := h.bounded job hjob
      exact ⟨f, hf, hle, fun hr' => absurd hr' hr⟩
  have hconn : o.sys.conn = ⟨o.sys.tables, none, o.sys.conn.calls⟩ := by
    rw [← h.view_eq_none (by rw [hlister]; rintro ⟨⟩)]
    rfl
  have hjobs : ∀ (i : Nat) job call, o.sys.queue[i]? = some job → o.tickets[i]? = some call →
      ∃ j : Nat, o.sys.queue[j]? = some job ∧ o.tickets[j]? = some call :=
    fun i job call hjob hcall => ⟨i, hjob, hcall⟩
  have hstored := scanFileStore_cases h.constraints hend v id seq
  rw [← hconn] at hstored
  simp only [record, storedId, hlister]
  rcases hstored with ⟨c, heq, hdurable⟩ | ⟨t, n, hrows, heq | heq⟩
  all_goals
    rw [heq] at hret
    subst hret
    simp only [heq]
    rcases hcases with ⟨hret, rfl, rfl⟩ | ⟨hret, rfl, rfl⟩ | ⟨fileid, hret, rfl, rfl⟩ <;> cases hret
  · refine h.of_rows ?_ hkeeps (.inl rfl) rfl h.length hjobs
    simp only [ScanSys.tables, hdurable]
    exact .refl h.constraints _
  · exact h.of_rows hrows hkeeps (.inr rfl) rfl h.length hjobs
  · have hinserted := h.inserted hrows hkeeps (v.info seq) (if pushed then .idle else .ended) n
    cases pushed with
    | false => exact hinserted
    | true =>
      have hscheduled := @Owned.schedule _ hinserted ⟨v.path, t.newRowid, v.size⟩
        ⟨_, Tables.mem_writeFile_files.2 (.inr rfl), rfl⟩
      simp only [if_true] at hscheduled ⊢
      exact hscheduled

/-- Every safe step keeps the invariant. -/
theorem Owned.step (h : o.Owned) {event : ScanEvent} (hsafe : StoresSafely o.sys event)
    (hstep : o.step cfg event = some o') : o'.Owned := by
  cases event with
  | start pruned =>
    obtain ⟨s', hscan, rfl⟩ := Option.map_eq_some_iff.1 hstep
    obtain ⟨-, rfl⟩ := scanStep_start hscan
    split
    · exact owned_of_no_jobs (.started o.sys.tables.deleteUnscannedFiles) rfl
        (h.constraints.deleteFiles _) rfl o.calls o.origin
    · exact owned_of_no_jobs (.stopped o.sys.tables) rfl h.constraints rfl o.calls o.origin
  | describe v ok => exact h.describe hstep
  | store faults pushed => exact h.store hsafe hstep
  | worker i result faults => exact h.worker hstep
  | kill =>
    obtain ⟨s', hscan, rfl⟩ := Option.map_eq_some_iff.1 hstep
    cases hscan
    exact owned_of_no_jobs (.stopped o.sys.tables) rfl h.constraints rfl o.calls o.origin

end OwnedSys

theorem SafeRun.owned {cfg : ScanConfig} {o o' : OwnedSys} {events : List ScanEvent}
    (hrun : SafeRun cfg o events o') (h : o.Owned) : o'.Owned := by
  induction hrun with
  | nil o => exact h
  | cons hsafe hstep _ ih => exact ih (h.step hsafe hstep)

/-! ## Where hashes go -/

/-- After every run in which the steps of the lister are safe, a worker attaches its
    hashes to the row that was inserted when its job was scheduled, and to no other. -/
theorem safeRun_attaches {cfg : ScanConfig} (db : Hashfile) {events : List ScanEvent}
    {o o' : OwnedSys} (hrun : SafeRun cfg (.init db.toTables) events o) {i : Nat}
    {result : Option (ScanCommit DigestBytes)} {faults : Nat → Answer}
    (hstep : o.step cfg (.worker i result faults) = some o') :
    ∃ job call, o.sys.queue[i]? = some job ∧ o.tickets[i]? = some call ∧
      (∀ f ∈ o.sys.tables.files, f.id = job.fileid → o.origin f.id = call) ∧
      AttachesTo o.sys.tables o'.sys.tables fun id =>
        (∃ f ∈ o.sys.tables.files, f.id = id) ∧ o.origin id = call := by
  have h := hrun.owned (OwnedSys.owned_init db)
  have h' := h.worker hstep
  obtain ⟨job, hjob, -, -, horigin, -, -, htables⟩ := OwnedSys.worker_step hstep
  have hlt : i < o.tickets.length := by
    rw [h.length]
    exact (List.getElem?_eq_some_iff.1 hjob).1
  have hcall := List.getElem?_eq_getElem hlt
  have howner := h.owner i job _ hjob hcall
  refine ⟨job, _, hjob, hcall, howner, ?_⟩
  rcases htables with heq | ⟨t, digest, flags, hadded, heq⟩
  · rw [heq]
    exact ⟨fun f hf hnew => absurd hf hnew, fun b hb hnew => absurd hb hnew,
      fun e he hnew => absurd he hnew⟩
  -- Whatever is new has the id of the job, and the constraints give the row with that id.
  have hattached : ∀ fileid, fileid = job.fileid → (∃ f ∈ o'.sys.tables.files, f.id = fileid) →
      (∃ f ∈ o.sys.tables.files, f.id = fileid) ∧ o.origin fileid = o.tickets[i] := by
    rintro _ hid ⟨f, hf, rfl⟩
    have hrows : RowsFrom (fun _ => True) o.sys.tables o'.sys.tables := by
      rw [heq]
      exact .updateScannedFile hadded h.constraints digest flags
    obtain ⟨g, hg, hgid⟩ := hrows.old f hf
    rw [← hgid]
    exact ⟨⟨g, hg, rfl⟩, howner g hg (hgid.trans hid)⟩
  refine ⟨?_, ?_, ?_⟩
  · intro f hf hnew
    refine hattached f.id ?_ ⟨f, hf, rfl⟩
    rw [heq] at hf
    obtain ⟨g, hg, ⟨-, rfl⟩ | ⟨hid, rfl⟩⟩ := Tables.exists_of_mem_updateScannedFile hf
    · exact absurd (hadded.files ▸ hg) hnew
    · exact hid
  · intro b hb hnew
    refine hattached b.fileid ?_ (h'.constraints.block_fileid b hb)
    rw [heq] at hb
    exact (hadded.blocks b hb).resolve_left hnew
  · intro e he hnew
    refine hattached e.fileid ?_ (h'.constraints.extent_fileid e he)
    rw [heq] at he
    exact (hadded.extents e he).resolve_left hnew

/-- A hashfile with one scanned file. -/
def scannedHashfile : Hashfile where
  files := [⟨1, "/b", 10, 0, 4096, 5, 1, some zeroDigest, some 0⟩]
  extents := []
  blocks := []
  constraints := by
    constructor <;> simp

/-- A new file, and the file of the hashfile after it was moved to another path. -/
def unseenFile : ListedFile := ⟨"/a", 11, 0, 4096, 5, fun _ => false, Nat.succ_pos 4095⟩

def movedFile (path : String) : ListedFile :=
  ⟨path, 10, 0, 4096, 5, fun old => decide (old = "/b"), Nat.succ_pos 4095⟩

/-- The lister comes across both of them while the worker of the first one is busy. -/
def movedEvents (path : String) : List ScanEvent :=
  [.start true, .describe unseenFile true, .store (fun _ => .done) true,
    .describe (movedFile path) true, .store (fun _ => .done) true]

/-- What the worker of the first file commits. -/
def unseenCommit : ScanCommit DigestBytes := ⟨zeroDigest, [⟨0, zeroDigest⟩], [], 0⟩

theorem safeRun_attaches_movedAside :
    ∃ o o', SafeRun defaultConfig (.init scannedHashfile.toTables) (movedEvents "/c") o ∧
      o.step defaultConfig (.worker 0 (some unseenCommit) fun _ => .done) = some o' ∧
      o'.sys.tables.blocks = [⟨zeroDigest, 2, 0⟩] ∧ o.origin 2 = 1 ∧
      ∃ job call, o.sys.queue[0]? = some job ∧ o.tickets[0]? = some call ∧
        (∀ f ∈ o.sys.tables.files, f.id = job.fileid → o.origin f.id = call) ∧
        AttachesTo o.sys.tables o'.sys.tables fun id =>
          (∃ f ∈ o.sys.tables.files, f.id = id) ∧ o.origin id = call := by
  have hrun : ∃ o, SafeRun defaultConfig (.init scannedHashfile.toTables) (movedEvents "/c") o ∧
      (∃ o', o.step defaultConfig (.worker 0 (some unseenCommit) fun _ => .done) = some o' ∧
        o'.sys.tables.blocks = [⟨zeroDigest, 2, 0⟩]) ∧ o.origin 2 = 1 := by
    refine ⟨_, .cons trivial rfl (.cons trivial rfl (.cons ?_ rfl (.cons trivial rfl
      (.cons ?_ rfl (.nil _))))), ⟨_, rfl, rfl⟩, rfl⟩
    · rintro _ _ _ _ ⟨⟩
      exact ⟨rfl, fun hr => absurd hr (by decide)⟩
    · rintro _ _ _ _ ⟨⟩
      refine ⟨rfl, fun _ job hjob => ?_⟩
      rw [List.mem_singleton.1 hjob]
      exact ⟨⟨2, "/a", 11, 0, 4096, 5, 1, none, none⟩, by decide, by decide,
        fun _ => .inl (by decide)⟩
  obtain ⟨o, hrun, ⟨o', hstep, hblocks⟩, horigin⟩ := hrun
  exact ⟨o, o', hrun, hstep, hblocks, horigin, safeRun_attaches scannedHashfile hrun hstep⟩

/-- Moved over the new file, the file of the hashfile takes its name and its id, and gets
    its hashes. -/
theorem movedOver_attaches_elsewhere :
    ∃ o o', (movedEvents "/a").foldlM (OwnedSys.step defaultConfig)
        (.init scannedHashfile.toTables) = some o ∧
      o.step defaultConfig (.worker 0 (some unseenCommit) fun _ => .done) = some o' ∧
      o.tickets[0]? = some 1 ∧ o.origin 2 = 2 ∧
      ¬ AttachesTo o.sys.tables o'.sys.tables fun id => o.origin id = 1 := by
  refine ⟨_, _, rfl, rfl, rfl, rfl, fun h => ?_⟩
  have hid := h.blocks ⟨zeroDigest, 2, 0⟩ (by decide) (by decide)
  exact absurd hid (by decide)

end Duperemove
