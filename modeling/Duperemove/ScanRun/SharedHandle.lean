-- SUMMARY: The workers' transactions call by call, on a handle that all of them share and each of them may replace.
import Duperemove.ScanRun.Locking
import Mathlib.Data.List.Perm.Basic

/-!
# The shared handle

The variable `db` of `csum_whole_file` is `static` but not `__thread`: all workers
share it, and a worker that found it unset opens a handle and replaces it.
`dbfile_open_handle_thread` holds `dbfile_lock`, but the assignment comes after its
return, whatever the others do at that time. Every call of a worker's transaction
reads the variable again, so the transaction is taken apart into its calls here, and
the transactions of the handles live beside that of the lister. When no worker
replaces the handle inside the transaction of another one, a run does what a run does
in which the transactions are single steps.
-/

namespace Duperemove

open Transaction (Answer Conn)

/-! ## The machine -/

/-- A connection that `dbfile_open_handle_thread` returned: the transaction that is open on
    it, and whether it wrote there, so that SQLite keeps the others from writing. -/
structure Handle where
  view : Option Tables
  wrote : Bool
  deriving DecidableEq

/-- The calls of `csum_whole_file` behind `dbfile_begin_trans`. -/
inductive StoreCall where
  | blocks
  | extents
  | update
  | commit
  | abort
  deriving DecidableEq

/-- Where a worker is in `csum_whole_file`. `before` is not a variable of the source: it is
    the hashfile as it was when the transaction began. -/
inductive Worker where
  | idle
  | connecting (job : FileToScan)
  | opened (job : FileToScan) (handle : Option Nat)
  | scanning (job : FileToScan)
  | storing (job : FileToScan) (r : ScanCommit DigestBytes) (before : Tables) (call : StoreCall)

/-- A scan, with `db`, the handles that were opened, the threads of the pool, and the one
    that holds `dbfile_lock`. The lister holds the lock when it is stuck. -/
structure SharedSys where
  sys : ScanSys
  db : Option Nat
  handles : List Handle
  workers : List Worker
  lock : Option Nat

inductive SharedEvent where
  | start (pruned : Bool)
  | describe (v : ListedFile) (ok : Bool)
  | store (faults : Nat → Answer) (pushed : Bool)
  /-- The pool starts a thread. -/
  | spawn
  /-- The worker `i` takes the job `j`, prepares its buffer and tests `db`. -/
  | take (i j : Nat) (prepared : Bool)
  /-- `dbfile_open_handle_thread` takes the lock and opens a handle for the worker `i`. -/
  | openHandle (i : Nat) (opened : Bool)
  /-- The worker `i` sets `db` to what was returned, and returns itself without a handle. -/
  | assign (i : Nat)
  /-- The worker `i` returns before it has a result. -/
  | giveUp (i : Nat)
  /-- The worker `i` takes the lock and begins its transaction. -/
  | begin (i : Nat) (r : ScanCommit DigestBytes) (faults : Nat → Answer)
  /-- The next call of the worker `i` in its transaction. -/
  | call (i : Nat) (faults : Nat → Answer)
  | kill

namespace StoreCall

/-- The statements of a call. -/
def statements (fileid : Nat) (r : ScanCommit DigestBytes) :
    StoreCall → List (Tables → Option Tables)
  | .blocks => blockStatements fileid r.blocks
  | .extents => extentStatements fileid r.extents
  | .update => [fun t => some (t.updateScannedFile r.digest r.flags fileid)]
  | .commit => []
  | .abort => []

/-- What `csum_whole_file` calls next; `none` is `dbfile_unlock` and a return. -/
def next (ok : Bool) : StoreCall → Option StoreCall
  | .blocks => some (if ok then .extents else .abort)
  | .extents => some (if ok then .update else .abort)
  | .update => some (if ok then .commit else .abort)
  | .commit => none
  | .abort => none

/-- A call on a connection. While it is busy SQLite answers the statements with
    `SQLITE_BUSY`. -/
def run (faults : Nat → Answer) (busy : Bool) (fileid : Nat) (r : ScanCommit DigestBytes)
    (call : StoreCall) (c : Conn Tables) : Bool × Conn Tables :=
  match call with
  | .commit => Transaction.commit faults c
  | .abort => Transaction.rollback faults c
  | call =>
    Transaction.execAll (if busy then fun _ => .failed else faults) (call.statements fileid r) c

end StoreCall

namespace SharedSys

/-- The hashfile when no process has it open. -/
def stopped (t : Tables) : SharedSys := ⟨.stopped t, none, [], [], none⟩

def tables (s : SharedSys) : Tables := s.sys.tables

/-- What a call on the handle `h` works on. -/
def conn (s : SharedSys) (h : Nat) : Conn Tables :=
  ⟨s.tables, s.handles[h]?.bind Handle.view, 0⟩

/-- Another connection than the handle `h` keeps it from writing. -/
def busy (s : SharedSys) (h : Nat) : Bool :=
  s.sys.conn.view.isSome || (s.handles.eraseIdx h).any Handle.wrote

/-- What a call on the handle `h` left, and whether it wrote. -/
def setHandle (s : SharedSys) (h : Nat) (c : Conn Tables) (wrote : Bool) : SharedSys :=
  let old := (s.handles[h]?.map Handle.wrote).getD false
  { s with
    sys := { s.sys with conn := { s.sys.conn with durable := c.durable } }
    handles := s.handles.set h ⟨c.view, c.view.isSome && (old || wrote)⟩ }

def setWorker (s : SharedSys) (i : Nat) (w : Worker) : SharedSys :=
  { s with workers := s.workers.set i w }

/-- `dbfile_lock` and `dbfile_begin_trans`, with `dbfile_unlock` when the latter fails.
    Without a handle the process crashes. -/
def begin (s : SharedSys) (i : Nat) (job : FileToScan) (r : ScanCommit DigestBytes)
    (faults : Nat → Answer) : SharedSys :=
  match s.db with
  | none => .stopped s.tables
  | some h =>
    match Transaction.begin faults (s.conn h) with
    | (false, c) => (s.setHandle h c false).setWorker i .idle
    | (true, c) =>
      { (s.setHandle h c false).setWorker i (.storing job r s.tables .blocks) with lock := some i }

/-- The next call of a transaction, with the return behind the last one. -/
def call (s : SharedSys) (i : Nat) (job : FileToScan) (r : ScanCommit DigestBytes)
    (before : Tables) (call : StoreCall) (faults : Nat → Answer) : SharedSys :=
  match s.db with
  | none => .stopped s.tables
  | some h =>
    let (ok, c) := call.run faults (s.busy h) job.fileid r (s.conn h)
    let s := s.setHandle h c (!s.busy h && !(call.statements job.fileid r).isEmpty)
    match call.next ok with
    | some call => s.setWorker i (.storing job r before call)
    | none => { s.setWorker i .idle with lock := none }

/-- One step; `none` when it cannot happen in this state. -/
def step (cfg : ScanConfig) (s : SharedSys) : SharedEvent → Option SharedSys
  | .start pruned =>
    (scanStep cfg s.sys (.start pruned)).map fun sys => ⟨sys, none, [], [], none⟩
  | .describe v ok => (scanStep cfg s.sys (.describe v ok)).map fun sys => { s with sys := sys }
  | .store faults pushed =>
    if s.lock.isSome then none
    else
      let faults := if s.handles.any Handle.wrote then fun _ => .failed else faults
      (scanStep cfg s.sys (.store faults pushed)).map fun sys => { s with sys := sys }
  | .spawn => if s.sys.running then some { s with workers := s.workers ++ [.idle] } else none
  | .take i j prepared =>
    match s.workers[i]?, s.sys.queue[j]? with
    | some .idle, some job =>
      let s := { s with sys := { s.sys with queue := s.sys.queue.eraseIdx j } }
      if prepared then
        some (s.setWorker i (if s.db.isSome then .scanning job else .connecting job))
      else some (s.setWorker i .idle)
    | _, _ => none
  | .openHandle i opened =>
    match s.workers[i]?, s.lock, s.sys.lister with
    | some (.connecting _), none, .stuck => none
    | some (.connecting job), none, _ =>
      if opened then
        some { s.setWorker i (.opened job (some s.handles.length)) with
          handles := s.handles ++ [⟨none, false⟩] }
      else some (s.setWorker i (.opened job none))
    | _, _, _ => none
  | .assign i =>
    match s.workers[i]? with
    | some (.opened job handle) =>
      some { s.setWorker i (if handle.isSome then .scanning job else .idle) with db := handle }
    | _ => none
  | .giveUp i =>
    match s.workers[i]? with
    | some (.scanning _) => some (s.setWorker i .idle)
    | _ => none
  | .begin i r faults =>
    match s.workers[i]?, s.lock, s.sys.lister with
    | some (.scanning _), none, .stuck => none
    | some (.scanning job), none, _ => some (s.begin i job r faults)
    | _, _, _ => none
  | .call i faults =>
    match s.workers[i]? with
    | some (.storing job r before call) => some (s.call i job r before call faults)
    | _ => none
  | .kill => some (.stopped s.tables)

def run (cfg : ScanConfig) (s : SharedSys) (events : List SharedEvent) : Option SharedSys :=
  events.foldlM (step cfg) s

/-- No worker sets `db` to its handle inside the transaction of another one. -/
def Steady (s : SharedSys) : SharedEvent → Prop
  | .assign i => ∀ job h, s.workers[i]? = some (.opened job (some h)) → s.lock = none
  | _ => True

/-- A run in which `db` is steady at every step. -/
inductive SteadyRun (cfg : ScanConfig) : SharedSys → List SharedEvent → SharedSys → Prop where
  | nil (s : SharedSys) : SteadyRun cfg s [] s
  | cons {s s₁ s' : SharedSys} {event : SharedEvent} {events : List SharedEvent}
      (hsteady : s.Steady event) (hstep : s.step cfg event = some s₁)
      (hrest : SteadyRun cfg s₁ events s') : SteadyRun cfg s (event :: events) s'

end SharedSys

/-! ## The calls of one transaction -/

namespace StoreCall

/-- The statements in front of a call. -/
def before (fileid : Nat) (r : ScanCommit DigestBytes) : StoreCall → List (Tables → Option Tables)
  | .blocks => []
  | .extents => blockStatements fileid r.blocks
  | .update => blockStatements fileid r.blocks ++ extentStatements fileid r.extents
  | .commit => csumStatements fileid r
  | .abort => []

/-- What a transaction that began in `t` has come to in front of a call. -/
def Reached (t : Tables) (fileid : Nat) (r : ScanCommit DigestBytes) (view : Option Tables)
    (call : StoreCall) : Prop :=
  call ≠ .abort → ∃ t', (call.before fileid r).foldlM (fun t stmt => stmt t) t = some t' ∧
    view = some t'

variable {t : Tables} {fileid : Nat} {r : ScanCommit DigestBytes} {c : Conn Tables}
  {call : StoreCall}

/-- The statements of a call leave the hashfile alone, and the next call is reached. -/
theorem Reached.execAll (h : call.Reached c.durable fileid r c.view) (hcall : call ≠ .abort)
    (call' : StoreCall)
    (hbefore : call'.before fileid r = call.before fileid r ++ call.statements fileid r)
    (faults : Nat → Answer) :
    (Transaction.execAll faults (call.statements fileid r) c).2.durable = c.durable ∧
    Reached c.durable fileid r (Transaction.execAll faults (call.statements fileid r) c).2.view
      (if (Transaction.execAll faults (call.statements fileid r) c).1 then call' else .abort) := by
  obtain ⟨t, hfold, hview⟩ := h hcall
  obtain ⟨hdurable, hdone⟩ := Transaction.execAll_cases faults (call.statements fileid r) hview
  refine ⟨hdurable, fun hne => ?_⟩
  split at hne
  · rename_i hok
    obtain ⟨t', hfold', hview'⟩ := hdone hok
    refine ⟨t', ?_, hview'⟩
    rw [if_pos hok, hbefore, List.foldlM_append, hfold]
    exact hfold'
  · exact absurd rfl hne

/-- A call inside a transaction goes on, gives up, or ends it: only a commit that succeeds
    changes the hashfile, into what all the statements make of it. -/
theorem run_cases (h : call.Reached c.durable fileid r c.view) (faults : Nat → Answer)
    (busy : Bool) :
    (∃ call', call.next (call.run faults busy fileid r c).1 = some call' ∧
      (call.run faults busy fileid r c).2.durable = c.durable ∧
      call'.Reached c.durable fileid r (call.run faults busy fileid r c).2.view ∧
      (call' = .commit → busy = false)) ∨
    (call.next (call.run faults busy fileid r c).1 = none ∧
      ((call.run faults busy fileid r c).2.durable = c.durable ∨
        call = .commit ∧ (call.run faults busy fileid r c).1 = true ∧
          (csumStatements fileid r).foldlM (fun t stmt => stmt t) c.durable =
            some (call.run faults busy fileid r c).2.durable)) := by
  cases call with
  | blocks =>
    obtain ⟨hdurable, hnext⟩ := h.execAll (by simp) .extents rfl
      (if busy then fun _ => .failed else faults)
    refine .inl ⟨_, rfl, hdurable, hnext, fun hcommit => ?_⟩
    split at hcommit <;> cases hcommit
  | extents =>
    obtain ⟨hdurable, hnext⟩ := h.execAll (by simp) .update rfl
      (if busy then fun _ => .failed else faults)
    refine .inl ⟨_, rfl, hdurable, hnext, fun hcommit => ?_⟩
    split at hcommit <;> cases hcommit
  | update =>
    have hbefore : before fileid r .commit =
        before fileid r .update ++ statements fileid r .update := (List.append_assoc _ _ _).symm
    obtain ⟨hdurable, hnext⟩ := h.execAll (by simp) .commit hbefore
      (if busy then fun _ => .failed else faults)
    refine .inl ⟨_, rfl, hdurable, hnext, fun hcommit => ?_⟩
    -- on a busy connection the statement fails, and the next call is the rollback
    cases busy with
    | false => rfl
    | true => cases hcommit
  | commit =>
    obtain ⟨t, hfold, hview⟩ := h (by simp)
    rcases Transaction.commit_cases faults hview with ⟨-, hdurable⟩ | ⟨hok, hdurable⟩
    · exact .inr ⟨rfl, .inl hdurable⟩
    · exact .inr ⟨rfl, .inr ⟨rfl, hok, hfold.trans (congrArg some hdurable.symm)⟩⟩
  | abort => exact .inr ⟨rfl, .inl (Transaction.rollback_durable faults c)⟩

end StoreCall

/-- The statements of a transaction, as a single step of a worker. -/
theorem workerCommit_of_foldlM {c : Conn Tables} {fileid : Nat} {r : ScanCommit DigestBytes}
    {t : Tables} (hview : c.view = none)
    (hfold : (csumStatements fileid r).foldlM (fun t stmt => stmt t) c.durable = some t) :
    workerCommit c (fun _ => .done) fileid r = { c with durable := t } := by
  have hbegin : Transaction.begin (fun _ => .done) (⟨c.durable, none, 0⟩ : Conn Tables) =
      (true, ⟨c.durable, some c.durable, 1⟩) := rfl
  obtain ⟨hok, hdone⟩ := Transaction.execAll_eq_true
    (c := (⟨c.durable, some c.durable, 1⟩ : Conn Tables)) rfl hfold
  have hcommit : (csumCommit (fun _ => .done) fileid r ⟨c.durable, none, 0⟩).2.durable = t := by
    rw [csumCommit_eq _ _ _ _ (congrArg Prod.fst hbegin), hbegin, if_pos hok]
    simp only [Transaction.commit, Transaction.call, Conn.count, hdone]
  unfold workerCommit
  rw [hview]
  simp only [hcommit]

/-! ## Runs with single steps -/

namespace Worker

/-- The job that a worker has in its hands. -/
def job? : Worker → Option FileToScan
  | .idle => none
  | .connecting job => some job
  | .opened job _ => some job
  | .scanning job => some job
  | .storing job _ _ _ => some job

end Worker

/-- Changing one member of a list changes what a partial function picks out by that
    member. -/
theorem filterMap_set_perm {α β : Type} {l : List α} {i : Nat} {a : α} (ha : l[i]? = some a)
    (f : α → Option β) (b : α) :
    ((l.set i b).filterMap f ++ (f a).toList).Perm (l.filterMap f ++ (f b).toList) := by
  obtain ⟨hi, rfl⟩ := List.getElem?_eq_some_iff.1 ha
  have hcons (c : α) : ((c :: l.eraseIdx i).filterMap f).Perm
      ((l.eraseIdx i).filterMap f ++ (f c).toList) := by
    rw [List.filterMap_cons]
    cases f c with
    | none => simp
    | some y => exact (List.perm_append_singleton y _).symm
  have hset := ((List.set_perm_cons_eraseIdx hi b).filterMap f).trans (hcons b)
  have hold := ((List.getElem_cons_eraseIdx_perm hi).symm.filterMap f).trans (hcons _)
  calc
    ((l.set i b).filterMap f ++ (f l[i]).toList).Perm _ := hset.append_right _
    List.Perm _ ((l.eraseIdx i).filterMap f ++ (f l[i]).toList ++ (f b).toList) := by
      rw [List.append_assoc, List.append_assoc]
      exact (List.perm_append_comm).append_left _
    List.Perm _ _ := (hold.append_right _).symm

namespace SharedSys

/-- The jobs that the workers took from the queue. -/
def inHand (s : SharedSys) : List FileToScan := s.workers.filterMap Worker.job?

/-- The scan whose transactions are single steps has the same state, and in its queue also
    the jobs that are in the hands of the workers. -/
def Refines (s : SharedSys) (a : ScanSys) : Prop :=
  ∃ queue, a = { s.sys with queue := queue } ∧ queue.Perm (s.sys.queue ++ s.inHand)

/-- A transaction runs under the lock, on the handle that `db` has, or on none that it
    could use. It has not touched the hashfile, and nobody else has since it began. -/
structure Serial (s : SharedSys) : Prop where
  running : s.workers ≠ [] → s.sys.running = true
  handle : ∀ h, s.db = some h → h < s.handles.length
  opened : ∀ (i : Nat) job h, s.workers[i]? = some (.opened job (some h)) → h < s.handles.length
  locked : ∀ (i : Nat) job r before call, s.workers[i]? = some (.storing job r before call) →
    s.lock = some i
  storing : ∀ (i : Nat) job r before call, s.workers[i]? = some (.storing job r before call) →
    before = s.tables ∧ s.sys.lister ≠ .stuck ∧ (call = .commit → s.sys.conn.view = none) ∧
      ∀ h, s.db = some h → call.Reached s.tables job.fileid r (s.conn h).view

variable {cfg : ScanConfig} {s s' : SharedSys} {a : ScanSys}

theorem inHand_set {i : Nat} {w : Worker} (hw : s.workers[i]? = some w) (s' : SharedSys)
    (w' : Worker) (hs' : s'.workers = s.workers.set i w') :
    (s'.inHand ++ w.job?.toList).Perm (s.inHand ++ w'.job?.toList) := by
  rw [inHand, hs']
  exact filterMap_set_perm hw Worker.job? w'

/-- A step that only passes a job on. -/
theorem Refines.keep (h : s.Refines a) (queue : List FileToScan)
    (hsys : s'.sys = { s.sys with queue := queue })
    (hperm : (s'.sys.queue ++ s'.inHand).Perm (s.sys.queue ++ s.inHand)) : s'.Refines a := by
  obtain ⟨queue', rfl, hqueue⟩ := h
  refine ⟨queue', ?_, hqueue.trans hperm.symm⟩
  rw [hsys]

/-- A job among others has a place in the queue. -/
theorem exists_eraseIdx_perm {job : FileToScan} {queue rest : List FileToScan}
    (h : queue.Perm (job :: rest)) :
    ∃ k, queue[k]? = some job ∧ (queue.eraseIdx k).Perm rest := by
  obtain ⟨k, hk, hjob⟩ := List.getElem_of_mem (h.mem_iff.2 List.mem_cons_self)
  refine ⟨k, by rw [List.getElem?_eq_getElem hk, hjob], ?_⟩
  have hcons := List.getElem_cons_eraseIdx_perm hk
  rw [hjob] at hcons
  exact (hcons.trans h).cons_inv

/-- A worker returns without having stored anything. -/
theorem Refines.drop (h : s.Refines a) (queue : List FileToScan) (job : FileToScan)
    (hsys : s'.sys = { s.sys with queue := queue })
    (hperm : (s.sys.queue ++ s.inHand).Perm (job :: (s'.sys.queue ++ s'.inHand))) :
    ∃ events a', scanRun cfg a events = some a' ∧ s'.Refines a' := by
  obtain ⟨queue', rfl, hqueue⟩ := h
  obtain ⟨k, hjob, hrest⟩ := exists_eraseIdx_perm (hqueue.trans hperm)
  refine ⟨[.worker k none fun _ => .done], { s.sys with queue := queue'.eraseIdx k }, ?_, ?_⟩
  · refine Steps.run_cons.2 ⟨_, ?_, rfl⟩
    simp only [scanStep, hjob]
  · exact ⟨_, by rw [hsys], hrest⟩

/-- A worker commits. -/
theorem Refines.commit (h : s.Refines a) {r : ScanCommit DigestBytes} {t : Tables}
    (job : FileToScan) (hstuck : s.sys.lister ≠ .stuck) (hview : s.sys.conn.view = none)
    (hfold : (csumStatements job.fileid r).foldlM (fun t stmt => stmt t) s.tables = some t)
    (hsys : s'.sys = { s.sys with conn := { s.sys.conn with durable := t } })
    (hperm : (s.sys.queue ++ s.inHand).Perm (job :: (s'.sys.queue ++ s'.inHand))) :
    ∃ events a', scanRun cfg a events = some a' ∧ s'.Refines a' := by
  obtain ⟨queue', rfl, hqueue⟩ := h
  obtain ⟨k, hjob, hrest⟩ := exists_eraseIdx_perm (hqueue.trans hperm)
  refine ⟨[.worker k (some r) fun _ => .done], { s.sys with
    conn := { s.sys.conn with durable := t }, queue := queue'.eraseIdx k }, ?_, ?_⟩
  · refine Steps.run_cons.2 ⟨_, ?_, rfl⟩
    have hcommit := workerCommit_of_foldlM hview hfold
    cases hlister : s.sys.lister with
    | stuck => exact absurd hlister hstuck
    | idle => simp only [scanStep, hjob, hlister, hcommit]
    | described v id renamed seq => simp only [scanStep, hjob, hlister, hcommit]
    | ended => simp only [scanStep, hjob, hlister, hcommit]
  · exact ⟨_, by rw [hsys], hrest⟩

/-- While no worker is in a transaction, the handles are all there is to check. -/
theorem serial_of_no_storing (hrunning : s.workers ≠ [] → s.sys.running = true)
    (hhandle : ∀ h, s.db = some h → h < s.handles.length)
    (hopened : ∀ (i : Nat) job h, s.workers[i]? = some (.opened job (some h)) →
      h < s.handles.length)
    (hnone : ∀ (i : Nat) job r before call, s.workers[i]? ≠ some (.storing job r before call)) :
    s.Serial where
  running := hrunning
  handle := hhandle
  opened := hopened
  locked := fun i job r before call hw => absurd hw (hnone i job r before call)
  storing := fun i job r before call hw => absurd hw (hnone i job r before call)

theorem serial_stopped (t : Tables) : (stopped t).Serial :=
  serial_of_no_storing (fun h => absurd rfl h) (fun _ h => by cases h)
    (fun _ _ _ h => by cases h) (fun _ _ _ _ _ h => by cases h)

/-- What a member of a list is after another one was changed. -/
theorem getElem?_set_cases {i j : Nat} {w v : Worker} {l : List Worker}
    (h : (l.set i w)[j]? = some v) : (i = j ∧ v = w) ∨ l[j]? = some v := by
  rw [List.getElem?_set] at h
  split at h
  · rename_i heq
    split at h
    · cases h
      exact .inl ⟨heq, rfl⟩
    · cases h
  · exact .inr h

/-- A step that moves a worker, inside of no transaction before or after it. -/
theorem Serial.move (h : s.Serial) {i : Nat} {queue : List FileToScan} (w : Worker)
    (hw : ∀ job r before call, w ≠ .storing job r before call)
    (hopened : ∀ job h, w = .opened job (some h) → h < s'.handles.length)
    (hne : s.workers ≠ [])
    (hsys : s'.sys = { s.sys with queue := queue }) (hworkers : s'.workers = s.workers.set i w)
    (hlock : s'.lock = s.lock) (hdb : s'.db = s.db ∨ s'.db = none ∨ s.lock = none ∧
      ∀ h, s'.db = some h → h < s'.handles.length)
    (hhandles : s'.handles = s.handles ∨ s.lock = none ∧ s.handles.length ≤ s'.handles.length) :
    s'.Serial := by
  have hlength : s.handles.length ≤ s'.handles.length := by
    rcases hhandles with heq | ⟨-, hle⟩
    · rw [heq]
    · exact hle
  refine ⟨fun _ => by rw [hsys]; exact h.running hne, fun k hk => ?_, fun j job k hj => ?_,
    fun j job r before call hj => ?_, fun j job r before call hj => ?_⟩
  · rcases hdb with heq | heq | ⟨-, hlt⟩
    · exact Nat.lt_of_lt_of_le (h.handle k (heq ▸ hk)) hlength
    · rw [heq] at hk
      cases hk
    · exact hlt k hk
  · rw [hworkers] at hj
    rcases getElem?_set_cases hj with ⟨-, heq⟩ | hj
    · exact hopened job k heq.symm
    · exact Nat.lt_of_lt_of_le (h.opened j job k hj) hlength
  · rw [hworkers] at hj
    rcases getElem?_set_cases hj with ⟨-, heq⟩ | hj
    · exact absurd heq.symm (hw job r before call)
    · rw [hlock]
      exact h.locked j job r before call hj
  · rw [hworkers] at hj
    rcases getElem?_set_cases hj with ⟨-, heq⟩ | hj
    · exact absurd heq.symm (hw job r before call)
    · have hheld := h.locked j job r before call hj
      obtain ⟨hbefore, hstuck, hview, hreached⟩ := h.storing j job r before call hj
      have htables : s'.tables = s.tables := by rw [tables, hsys]; rfl
      refine ⟨htables ▸ hbefore, by rw [hsys]; exact hstuck, by rw [hsys]; exact hview, ?_⟩
      intro k hk
      rcases hdb with heq | heq | ⟨hfree, -⟩
      · rcases hhandles with hsame | ⟨hfree, -⟩
        · have hconn : s'.conn k = s.conn k := by rw [conn, conn, htables, hsame]
          rw [htables, hconn]
          exact hreached k (heq ▸ hk)
        · rw [hfree] at hheld
          cases hheld
      · rw [heq] at hk
        cases hk
      · rw [hfree] at hheld
        cases hheld

/-! ## One step -/

/-- A step of the scan does what some steps of a scan with single transactions do. -/
def Simulated (cfg : ScanConfig) (s' : SharedSys) (a : ScanSys) : Prop :=
  s'.Serial ∧ ∃ events a', scanRun cfg a events = some a' ∧ s'.Refines a'

theorem Refines.simulated (href : s'.Refines a) (hserial : s'.Serial) : Simulated cfg s' a :=
  ⟨hserial, [], a, rfl, href⟩

theorem Refines.event (event : ScanEvent) (a' : ScanSys) (href : s'.Refines a')
    (hserial : s'.Serial) (hstep : scanStep cfg a event = some a') : Simulated cfg s' a :=
  ⟨hserial, [event], a', Steps.run_cons.2 ⟨a', hstep, rfl⟩, href⟩

/-- The process ends. -/
theorem Refines.kill (h : s.Refines a) : Simulated cfg (stopped s.tables) a := by
  obtain ⟨queue, rfl, -⟩ := h
  exact Refines.event .kill (.stopped s.tables) ⟨[], rfl, .refl _⟩ (serial_stopped _) rfl

theorem Refines.start (h : s.Refines a) {pruned : Bool}
    (hstep : s.step cfg (.start pruned) = some s') : Simulated cfg s' a := by
  obtain ⟨queue, rfl, -⟩ := h
  obtain ⟨sys, hsys, rfl⟩ := Option.map_eq_some_iff.1 hstep
  obtain ⟨hstopped, rfl⟩ := scanStep_start hsys
  refine Refines.event (.start pruned) (if pruned then
    .started s.sys.tables.deleteUnscannedFiles else .stopped s.sys.tables) ?_ ?_ ?_
  · refine ⟨[], ?_, ?_⟩
    · cases pruned <;> rfl
    · cases pruned <;> exact .refl _
  · exact serial_of_no_storing (fun h => absurd rfl h) (fun _ h => by cases h)
      (fun _ _ _ h => by cases h) (fun _ _ _ _ _ h => by cases h)
  · cases pruned <;> simp [scanStep, hstopped, ScanSys.tables]

/-- A visit does not look at the queue. -/
theorem describeFile_queue (cfg : ScanConfig) (s : ScanSys) (v : ListedFile) (ok : Bool)
    (queue : List FileToScan) :
    describeFile cfg { s with queue := queue } v ok =
      { describeFile cfg s v ok with queue := queue } := by
  unfold describeFile
  simp only
  split <;> rfl

theorem Refines.describe (h : s.Refines a) (hs : s.Serial) {v : ListedFile} {ok : Bool}
    (hstep : s.step cfg (.describe v ok) = some s') : Simulated cfg s' a := by
  obtain ⟨queue, rfl, hqueue⟩ := h
  obtain ⟨sys, hsys, rfl⟩ := Option.map_eq_some_iff.1 hstep
  obtain ⟨hr, hidle, rfl⟩ := scanStep_describe hsys
  have hsame : (describeFile cfg s.sys v ok).conn = s.sys.conn ∧
      (describeFile cfg s.sys v ok).running = s.sys.running ∧
      (describeFile cfg s.sys v ok).queue = s.sys.queue ∧
      (describeFile cfg s.sys v ok).lister ≠ .stuck := by
    rcases describeFile_cases cfg s.sys v ok with ⟨heq, -⟩ | ⟨heq, -⟩
    · rw [heq]
      exact ⟨rfl, rfl, rfl, by rw [hidle]; simp⟩
    · rw [heq]
      exact ⟨rfl, rfl, rfl, by simp⟩
  obtain ⟨hconn, hrunning, hsamequeue, hstuck⟩ := hsame
  refine Refines.event (.describe v ok) { describeFile cfg s.sys v ok with queue := queue }
    ⟨queue, rfl, ?_⟩ ?_ ?_
  · simp only [hsamequeue]
    exact hqueue
  · refine ⟨fun hne => hrunning.trans (hs.running hne), hs.handle, hs.opened, hs.locked, ?_⟩
    intro i job r before call hw
    obtain ⟨hbefore, -, hview, hreached⟩ := hs.storing i job r before call hw
    have htables : (describeFile cfg s.sys v ok).tables = s.tables := by
      rw [ScanSys.tables, hconn]
      rfl
    refine ⟨hbefore.trans htables.symm, hstuck, fun hc => ?_, fun k hk => ?_⟩
    · exact (congrArg Conn.view hconn).trans (hview hc)
    · have hconn' : ({ s with sys := describeFile cfg s.sys v ok } : SharedSys).conn k =
          s.conn k := by
        rw [conn, conn, tables, htables]
      rw [tables, htables, hconn']
      exact hreached k hk
  · rw [← describeFile_queue]
    simp only [scanStep, hr, hidle]

/-- The lister appends to the queue, whatever is in it. -/
theorem scanStep_store_queue {sys sys' : ScanSys} {faults : Nat → Answer} {pushed : Bool}
    (hstep : scanStep cfg sys (.store faults pushed) = some sys') (queue : List FileToScan) :
    sys'.running = sys.running ∧ ∃ more, sys'.queue = sys.queue ++ more ∧
      scanStep cfg { sys with queue := queue } (.store faults pushed) =
        some { sys' with queue := queue ++ more } := by
  simp only [scanStep] at hstep ⊢
  split at hstep
  · generalize scanFileStore faults _ _ _ _ sys.conn = r at hstep ⊢
    obtain ⟨ret, c⟩ := r
    cases ret with
    | renameFailed =>
      cases hstep
      exact ⟨rfl, [], by simp, by simp⟩
    | notStored =>
      cases hstep
      exact ⟨rfl, [], by simp, by simp⟩
    | stored fileid =>
      cases pushed with
      | true =>
        cases hstep
        exact ⟨rfl, _, rfl, rfl⟩
      | false =>
        cases hstep
        exact ⟨rfl, [], by simp, by simp⟩
  · cases hstep

theorem Refines.store (h : s.Refines a) (hs : s.Serial) {faults : Nat → Answer} {pushed : Bool}
    (hstep : s.step cfg (.store faults pushed) = some s') : Simulated cfg s' a := by
  obtain ⟨queue, rfl, hqueue⟩ := h
  simp only [step] at hstep
  split at hstep
  · cases hstep
  · rename_i hlock
    obtain ⟨sys, hsys, rfl⟩ := Option.map_eq_some_iff.1 hstep
    obtain ⟨hrunning, more, hmore, hstore⟩ := scanStep_store_queue hsys queue
    refine Refines.event _ _ ⟨_, rfl, ?_⟩ ?_ hstore
    · simp only [hmore, inHand]
      calc
        (queue ++ more).Perm (s.sys.queue ++ s.inHand ++ more) := hqueue.append_right more
        List.Perm _ (s.sys.queue ++ more ++ s.inHand) := by
          rw [List.append_assoc, List.append_assoc]
          exact List.perm_append_comm.append_left _
    · refine serial_of_no_storing (fun hne => hrunning.trans (hs.running hne)) hs.handle hs.opened
        fun i job r before call hw => ?_
      rw [hs.locked i job r before call hw] at hlock
      exact hlock rfl

theorem Refines.spawn (h : s.Refines a) (hs : s.Serial) (hstep : s.step cfg .spawn = some s') :
    Simulated cfg s' a := by
  simp only [step] at hstep
  split at hstep
  · rename_i hr
    cases hstep
    have hold {i : Nat} {w : Worker} (hw : w ≠ .idle) (hi : (s.workers ++ [.idle])[i]? = some w) :
        s.workers[i]? = some w := by
      rw [List.getElem?_append] at hi
      split at hi
      · exact hi
      · have hmem := List.mem_of_getElem? hi
        exact absurd (List.mem_singleton.1 hmem) hw
    refine Refines.simulated (h.keep s.sys.queue rfl ?_) ?_
    · simp [inHand, List.filterMap_cons, Worker.job?]
    · exact ⟨fun _ => hr, hs.handle, fun i job k hi => hs.opened i job k (hold (by simp) hi),
        fun i job r before call hi => hs.locked i job r before call (hold (by simp) hi),
        fun i job r before call hi => hs.storing i job r before call (hold (by simp) hi)⟩
  · cases hstep

theorem ne_nil_of_worker {i : Nat} {w : Worker} (hw : s.workers[i]? = some w) : s.workers ≠ [] := by
  intro hnil
  rw [hnil] at hw
  cases hw

/-- A worker returns with its job. -/
theorem Refines.finish (h : s.Refines a) (hserial : s'.Serial) {i : Nat} {w : Worker}
    {job : FileToScan} (hw : s.workers[i]? = some w) (hjob : w.job? = some job)
    (hsys : s'.sys = s.sys) (hworkers : s'.workers = s.workers.set i .idle) :
    Simulated cfg s' a := by
  refine ⟨hserial, h.drop s.sys.queue job hsys ?_⟩
  have hperm := inHand_set hw s' _ hworkers
  rw [hjob] at hperm
  simp only [Option.toList_some, Worker.job?, Option.toList_none, List.append_nil] at hperm
  rw [hsys]
  calc
    (s.sys.queue ++ s.inHand).Perm (s.sys.queue ++ (s'.inHand ++ [job])) :=
      hperm.symm.append_left _
    List.Perm _ (job :: (s.sys.queue ++ s'.inHand)) := by
      rw [← List.append_assoc]
      exact List.perm_append_singleton job _

/-- A worker goes on with its job. -/
theorem Refines.pass (h : s.Refines a) {i : Nat} {w : Worker} (hw : s.workers[i]? = some w)
    (w' : Worker) (hjob : w'.job? = w.job?) (hsys : s'.sys = s.sys)
    (hworkers : s'.workers = s.workers.set i w') : s'.Refines a := by
  refine h.keep s.sys.queue hsys ?_
  have hperm := inHand_set hw s' _ hworkers
  rw [hjob] at hperm
  rw [hsys]
  exact ((List.perm_append_right_iff _).1 hperm).append_left _

theorem Refines.take (h : s.Refines a) (hs : s.Serial) {i j : Nat} {prepared : Bool}
    (hstep : s.step cfg (.take i j prepared) = some s') : Simulated cfg s' a := by
  simp only [step] at hstep
  split at hstep
  · rename_i job hw hjob
    have hqueue : s.sys.queue.Perm (job :: s.sys.queue.eraseIdx j) := by
      obtain ⟨hj, rfl⟩ := List.getElem?_eq_some_iff.1 hjob
      exact (List.getElem_cons_eraseIdx_perm hj).symm
    have hne := ne_nil_of_worker hw
    split at hstep
    · cases hstep
      have hw' : ∀ b : Bool,
          (if b then Worker.scanning job else .connecting job).job? = some job := by
        intro b
        cases b <;> rfl
      have hserial : ∀ b : Bool, Serial (setWorker { s with
          sys := { s.sys with queue := s.sys.queue.eraseIdx j } } i
            (if b then .scanning job else .connecting job)) := by
        intro b
        refine hs.move _ ?_ ?_ hne rfl rfl rfl (.inl rfl) (.inl rfl)
        · cases b <;> simp
        · cases b <;> simp
      refine Refines.simulated (h.keep (s.sys.queue.eraseIdx j) rfl ?_) (hserial _)
      have hperm := inHand_set hw (setWorker { s with
        sys := { s.sys with queue := s.sys.queue.eraseIdx j } } i
          (if s.db.isSome then .scanning job else .connecting job)) _ rfl
      rw [hw'] at hperm
      simp only [Worker.job?, Option.toList_none, List.append_nil, Option.toList_some] at hperm
      calc
        List.Perm _ (s.sys.queue.eraseIdx j ++ (s.inHand ++ [job])) := hperm.append_left _
        List.Perm _ (job :: (s.sys.queue.eraseIdx j ++ s.inHand)) := by
          rw [← List.append_assoc]
          exact List.perm_append_singleton job _
        List.Perm _ (s.sys.queue ++ s.inHand) := hqueue.symm.append_right _
    · cases hstep
      refine ⟨hs.move .idle (by simp) (by simp) hne rfl rfl rfl (.inl rfl) (.inl rfl),
        h.drop (s.sys.queue.eraseIdx j) job rfl ?_⟩
      have hperm := inHand_set hw (setWorker { s with
        sys := { s.sys with queue := s.sys.queue.eraseIdx j } } i .idle) _ rfl
      simp only [Worker.job?, Option.toList_none, List.append_nil] at hperm
      have hrest := hperm.symm.append_left (s.sys.queue.eraseIdx j)
      exact (hqueue.append_right _).trans (hrest.cons job)
  · cases hstep

theorem Refines.openHandle (h : s.Refines a) (hs : s.Serial) {i : Nat} {opened : Bool}
    (hstep : s.step cfg (.openHandle i opened) = some s') : Simulated cfg s' a := by
  simp only [step] at hstep
  split at hstep
  · cases hstep
  · rename_i job hw hlock _
    have hne := ne_nil_of_worker hw
    split at hstep
    · cases hstep
      exact Refines.simulated (h.pass hw (.opened job (some s.handles.length)) rfl rfl rfl) (hs.move
        (.opened job (some s.handles.length)) (by simp) (by simp) hne rfl rfl rfl (.inl rfl)
        (.inr ⟨hlock, by simp⟩))
    · cases hstep
      exact Refines.simulated (h.pass hw (.opened job none) rfl rfl rfl) (hs.move
        (.opened job none) (by simp) (by simp) hne rfl rfl rfl (.inl rfl) (.inl rfl))
  · cases hstep

theorem Refines.assign (h : s.Refines a) (hs : s.Serial) {i : Nat} (hsteady : s.Steady (.assign i))
    (hstep : s.step cfg (.assign i) = some s') : Simulated cfg s' a := by
  simp only [step] at hstep
  split at hstep
  · rename_i job handle hw
    have hne := ne_nil_of_worker hw
    cases hstep
    cases handle with
    | none =>
      exact h.finish (hs.move .idle (by simp) (by simp) hne rfl rfl rfl (.inr (.inl rfl))
        (.inl rfl)) hw rfl rfl rfl
    | some k =>
      refine Refines.simulated (h.pass hw (.scanning job) rfl rfl rfl) (hs.move (.scanning job)
        (by simp) (by simp) hne rfl rfl rfl (.inr (.inr ⟨hsteady job k hw, ?_⟩)) (.inl rfl))
      rintro _ ⟨⟩
      exact hs.opened i job k hw
  · cases hstep

theorem Refines.giveUp (h : s.Refines a) (hs : s.Serial) {i : Nat}
    (hstep : s.step cfg (.giveUp i) = some s') : Simulated cfg s' a := by
  simp only [step] at hstep
  split at hstep
  · rename_i job hw
    cases hstep
    exact h.finish (hs.move .idle (by simp) (by simp) (ne_nil_of_worker hw) rfl rfl rfl (.inl rfl)
      (.inl rfl)) hw rfl rfl rfl
  · cases hstep

/-- A call that leaves the hashfile as it is changes nothing but its handle. -/
theorem length_setHandle {h : Nat} {c : Conn Tables} {wrote : Bool} :
    (s.setHandle h c wrote).handles.length = s.handles.length :=
  List.length_set

theorem setHandle_sys {h : Nat} {c : Conn Tables} (hdurable : c.durable = s.tables) (wrote : Bool) :
    (s.setHandle h c wrote).sys = s.sys := by
  simp only [setHandle, hdurable]
  rfl

theorem conn_setHandle {h : Nat} (hlt : h < s.handles.length) {c : Conn Tables} (wrote : Bool) :
    (s.setHandle h c wrote).conn h = ⟨c.durable, c.view, 0⟩ := by
  simp [conn, setHandle, tables, ScanSys.tables, hlt]

/-- While nobody has the lock, nobody is in a transaction. -/
theorem Serial.no_storing (hs : s.Serial) (hlock : s.lock = none) (i : Nat) (job : FileToScan)
    (r : ScanCommit DigestBytes) (before : Tables) (call : StoreCall) :
    s.workers[i]? ≠ some (.storing job r before call) := by
  intro hw
  have hheld := hs.locked i job r before call hw
  rw [hlock] at hheld
  cases hheld

/-- A worker that returns leaves nobody in a transaction. -/
theorem Serial.leave (hs : s.Serial) {i : Nat} {w : Worker} (hw : s.workers[i]? = some w)
    (hrunning : s'.sys.running = s.sys.running) (hworkers : s'.workers = s.workers.set i .idle)
    (hdb : s'.db = s.db) (hhandles : s'.handles.length = s.handles.length)
    (hothers : ∀ (j : Nat) job r before call,
      s.workers[j]? = some (.storing job r before call) → j = i) : s'.Serial := by
  refine serial_of_no_storing (fun _ => hrunning.trans (hs.running (ne_nil_of_worker hw)))
    (fun k hk => hhandles ▸ hs.handle k (hdb ▸ hk)) (fun j job k hj => ?_)
    fun j job r before call hj => ?_
  · rw [hworkers] at hj
    rcases getElem?_set_cases hj with ⟨-, heq⟩ | hj
    · cases heq
    · exact hhandles ▸ hs.opened j job k hj
  · rw [hworkers] at hj
    by_cases heq : i = j
    · rw [← heq, List.getElem?_set_self', hw] at hj
      cases hj
    · rw [List.getElem?_set_ne heq] at hj
      exact heq (hothers j job r before call hj).symm

/-- The worker with the lock is the only one in a transaction. -/
theorem Serial.transaction (hs : s.Serial) (hne : s.workers ≠ []) {i : Nat} {job : FileToScan}
    {r : ScanCommit DigestBytes} (call : StoreCall) (hsys : s'.sys = s.sys)
    (hworkers : s'.workers = s.workers.set i (.storing job r s.tables call))
    (hlock : s'.lock = some i) (hdb : s'.db = s.db)
    (hhandles : s'.handles.length = s.handles.length)
    (hothers : ∀ (j : Nat) job r before call,
      s.workers[j]? = some (.storing job r before call) → j = i)
    (hstuck : s.sys.lister ≠ .stuck) (hview : call = .commit → s.sys.conn.view = none)
    (hreached : ∀ h, s.db = some h → call.Reached s.tables job.fileid r (s'.conn h).view) :
    s'.Serial := by
  have htables : s'.tables = s.tables := congrArg ScanSys.tables hsys
  have hmine : ∀ (j : Nat) job' r' before' call',
      s'.workers[j]? = some (.storing job' r' before' call') →
        j = i ∧ Worker.storing job' r' before' call' = .storing job r s.tables call := by
    intro j job' r' before' call' hj
    rw [hworkers] at hj
    by_cases heq : i = j
    · subst heq
      rw [List.getElem?_set_self'] at hj
      cases hi : s.workers[i]? with
      | none =>
        rw [hi] at hj
        cases hj
      | some w =>
        rw [hi] at hj
        cases hj
        exact ⟨rfl, rfl⟩
    · rw [List.getElem?_set_ne heq] at hj
      exact absurd (hothers j job' r' before' call' hj).symm heq
  refine ⟨fun _ => hsys ▸ hs.running hne, fun k hk => ?_, fun j job k hj => ?_,
    fun j job r before call hj => ?_, fun j job' r' before' call' hj => ?_⟩
  · rw [hhandles]
    exact hs.handle k (hdb ▸ hk)
  · rw [hworkers] at hj
    rcases getElem?_set_cases hj with ⟨-, heq⟩ | hj
    · cases heq
    · rw [hhandles]
      exact hs.opened j job k hj
  · rw [(hmine j job r before call hj).1]
    exact hlock
  · obtain ⟨-, heq⟩ := hmine j job' r' before' call' hj
    cases heq
    exact ⟨htables.symm, hsys ▸ hstuck, fun hc => hsys ▸ hview hc,
      fun k hk => htables ▸ hreached k (hdb ▸ hk)⟩

theorem Refines.begin (h : s.Refines a) (hs : s.Serial) {i : Nat} {r : ScanCommit DigestBytes}
    {faults : Nat → Answer} (hstep : s.step cfg (.begin i r faults) = some s') :
    Simulated cfg s' a := by
  simp only [step] at hstep
  split at hstep
  · cases hstep
  · rename_i job hw hlock hstuck
    cases hstep
    unfold SharedSys.begin
    cases hdb : s.db with
    | none => exact h.kill
    | some k =>
      have hlt := hs.handle k hdb
      have hcases := Transaction.begin_cases faults (s.conn k)
      simp only
      generalize Transaction.begin faults (s.conn k) = b at hcases ⊢
      obtain ⟨ok, c⟩ := b
      rcases hcases with ⟨hok, hdurable⟩ | ⟨hok, hdurable, hview⟩
      · simp only at hok hdurable
        subst hok
        have hsys := setHandle_sys (h := k) hdurable false
        exact h.finish (hs.leave hw (congrArg ScanSys.running hsys) rfl rfl length_setHandle
          fun j job' r' before' call' hj => absurd hj (hs.no_storing hlock j job' r' before' call'))
          hw rfl hsys rfl
      · simp only at hok hdurable hview
        subst hok
        have hsys := setHandle_sys (h := k) hdurable false
        refine Refines.simulated (h.pass hw (.storing job r s.tables .blocks) rfl hsys rfl)
          (hs.transaction (ne_nil_of_worker hw) .blocks hsys rfl rfl rfl length_setHandle ?_ ?_ ?_
            ?_)
        · exact fun j job' r' before' call' hj =>
            absurd hj (hs.no_storing hlock j job' r' before' call')
        · exact fun heq => hstuck heq
        · rintro ⟨⟩
        · intro h' hdb' _
          rw [hdb] at hdb'
          cases hdb'
          refine ⟨s.tables, rfl, ?_⟩
          show ((s.setHandle k c false).conn k).view = some s.tables
          rw [conn_setHandle hlt]
          exact hview
  · cases hstep

theorem Refines.call (h : s.Refines a) (hs : s.Serial) {i : Nat} {faults : Nat → Answer}
    (hstep : s.step cfg (.call i faults) = some s') : Simulated cfg s' a := by
  simp only [step] at hstep
  split at hstep
  · rename_i job r before call hw
    cases hstep
    obtain ⟨rfl, hstuck, hcommit, hreached⟩ := hs.storing i job r before call hw
    have hlock := hs.locked i job r s.tables call hw
    have hothers : ∀ (j : Nat) job r before call,
        s.workers[j]? = some (.storing job r before call) → j = i := by
      intro j job' r' before' call' hj
      have hheld := hs.locked j job' r' before' call' hj
      rw [hlock] at hheld
      cases hheld
      rfl
    unfold SharedSys.call
    cases hdb : s.db with
    | none => exact h.kill
    | some k =>
      have hlt := hs.handle k hdb
      have hcases := StoreCall.run_cases (c := s.conn k) (hreached k hdb) faults (s.busy k)
      simp only
      generalize call.run faults (s.busy k) job.fileid r (s.conn k) = b at hcases ⊢
      obtain ⟨ok, c⟩ := b
      generalize (!s.busy k && !(call.statements job.fileid r).isEmpty) = wrote
      rcases hcases with ⟨call', hnext, hdurable, hreached', hbusy⟩ | ⟨hnext, hend⟩
      · simp only at hnext hdurable hreached'
        have hsys := setHandle_sys (h := k) hdurable wrote
        rw [hnext]
        refine Refines.simulated (h.pass hw (.storing job r s.tables call') rfl hsys rfl)
          (hs.transaction (ne_nil_of_worker hw) call' hsys rfl hlock rfl length_setHandle hothers
            hstuck ?_ ?_)
        · intro heq
          have hfree := hbusy heq
          simp only [busy, Bool.or_eq_false_iff] at hfree
          exact Option.isSome_eq_false_iff.1 hfree.1 |> Option.isNone_iff_eq_none.1
        · intro h' hdb'
          rw [hdb] at hdb'
          cases hdb'
          show StoreCall.Reached s.tables job.fileid r ((s.setHandle k c wrote).conn k).view call'
          rw [conn_setHandle hlt]
          exact hreached'
      · simp only at hnext hend
        rw [hnext]
        have hserial : Serial { (s.setHandle k c wrote).setWorker i .idle with lock := none } :=
          hs.leave hw rfl rfl rfl length_setHandle hothers
        rcases hend with hdurable | ⟨rfl, -, hfold⟩
        · exact h.finish hserial hw rfl (setHandle_sys (h := k) hdurable wrote) rfl
        · refine ⟨hserial, h.commit job hstuck (hcommit rfl) hfold rfl ?_⟩
          have hperm := inHand_set hw { (s.setHandle k c wrote).setWorker i .idle with
            lock := none } _ rfl
          simp only [Worker.job?, Option.toList_some, Option.toList_none, List.append_nil] at hperm
          calc
            (s.sys.queue ++ s.inHand).Perm (s.sys.queue ++ (_ ++ [job])) := hperm.symm.append_left _
            List.Perm _ (job :: (s.sys.queue ++ _)) := by
              rw [← List.append_assoc]
              exact List.perm_append_singleton job _
  · cases hstep

/-- Every step at which `db` is steady. -/
theorem Refines.step (h : s.Refines a) (hs : s.Serial) {event : SharedEvent}
    (hsteady : s.Steady event) (hstep : s.step cfg event = some s') : Simulated cfg s' a := by
  cases event with
  | start pruned => exact h.start hstep
  | describe v ok => exact h.describe hs hstep
  | store faults pushed => exact h.store hs hstep
  | spawn => exact h.spawn hs hstep
  | take i j prepared => exact h.take hs hstep
  | openHandle i opened => exact h.openHandle hs hstep
  | assign i => exact h.assign hs hsteady hstep
  | giveUp i => exact h.giveUp hs hstep
  | begin i r faults => exact h.begin hs hstep
  | call i faults => exact h.call hs hstep
  | kill =>
    cases hstep
    exact h.kill

/-- A run in which `db` is steady is a run with transactions that are single steps, seen
    call by call. -/
theorem SteadyRun.refines {events : List SharedEvent} (hrun : SteadyRun cfg s events s')
    (h : s.Refines a) (hs : s.Serial) : Simulated cfg s' a := by
  induction hrun generalizing a with
  | nil s => exact h.simulated hs
  | cons hsteady hstep hrest ih =>
    have hone : Simulated cfg _ a := h.step hs hsteady hstep
    obtain ⟨hserial, first, a₁, hfirst, h₁⟩ := hone
    obtain ⟨hserial', rest, a', hlater, h'⟩ := ih h₁ hserial
    refine ⟨hserial', first ++ rest, a', ?_, h'⟩
    rw [scanRun, List.foldlM_append]
    exact Option.bind_eq_some_iff.2 ⟨a₁, hfirst, hlater⟩

/-- The queue of the other scan holds all jobs of this one. -/
theorem Refines.inv (h : s.Refines a) (ha : a.Inv) : s.sys.Inv := by
  obtain ⟨queue, rfl, hqueue⟩ := h
  refine ⟨ha.running_sound, ha.stopped_sound, ha.described, fun hne => ha.queue ?_, ha.digests⟩
  intro hnil
  obtain rfl : queue = [] := hnil
  exact hne (List.append_eq_nil_iff.1 hqueue.nil_eq.symm).1

/-- A steady run keeps the invariants of the scan and of its transactions. -/
theorem SteadyRun.inv {t : Tables} (hc : t.Constraints) (hn : t.NoHalfStored)
    {events : List SharedEvent} (hrun : SteadyRun cfg (stopped t) events s) :
    s.sys.Inv ∧ s.Serial := by
  have hstart : (stopped t).Refines (.stopped t) := ⟨[], rfl, .refl _⟩
  obtain ⟨hserial, events', a, hscan, href⟩ := hrun.refines hstart (serial_stopped t)
  exact ⟨href.inv ((ScanSys.inv_stopped hc hn).scanRun hscan), hserial⟩

end SharedSys

end Duperemove
