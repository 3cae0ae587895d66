-- SUMMARY: The counters of the scan's progress display, and when the thread that waits for them can finish.
import Duperemove.Lib.Steps
import Mathlib.Data.List.Basic
import Mathlib.Data.UInt

/-!
# The progress counters

`__scan_file` raises the totals for every file that it schedules. A worker counts what
it has read while `csum_whole_file` runs, and `pscan_reset_thread` corrects its counter
when the function returns, so that a file always counts with its size. The progress
thread waits until both sums are equal to the totals.

The correction belongs to the structure that a thread registers, and a call that
returns before it registered leaves no trace. The first calls of a thread allocate its
buffer, and the first call of all opens the database: the variable `db` is shared by
all threads, and is not guarded. A thread of the pool that ends keeps its place in the
list of structures; it is one that takes no further file. Files that need no scan do
not touch the counters.
-/

namespace Duperemove

/-! ## One thread -/

/-- `struct pscan_thread`, without what is only printed. -/
structure PscanThread where
  totalScannedFiles : UInt64
  totalScannedBytes : UInt64
  fileScannedBytes : UInt64
  fileTotalBytes : UInt64
  deriving DecidableEq, Repr

/-- `pscan_register_thread` -/
def pscanRegisterThread : PscanThread := ⟨0, 0, 0, 0⟩

def pscanResetThread (progress : PscanThread) : PscanThread :=
  let scanned := progress.fileScannedBytes
  let total := progress.fileTotalBytes
  let progress :=
    if scanned < total then
      { progress with totalScannedBytes := progress.totalScannedBytes + (total - scanned) }
    else progress
  let progress :=
    if scanned > total then
      { progress with totalScannedBytes := progress.totalScannedBytes - (scanned - total) }
    else progress
  { progress with totalScannedFiles := progress.totalScannedFiles + 1 }

/-- Where a thread stands in `csum_whole_file`: in front of
    `dbfile_open_handle_thread`, because it found `db` unset, or behind the
    registration. -/
inductive CsumCall where
  | idle
  | connecting (filesize : UInt64)
  | scanning
  deriving DecidableEq, Repr

/-- A thread of the pool: whether it has a buffer, its `tls_progress`, and its call. -/
structure ScanThread where
  buffer : Bool
  tlsProgress : Option PscanThread
  call : CsumCall
  deriving DecidableEq, Repr

namespace ScanThread

def fresh : ScanThread := ⟨false, none, .idle⟩

/-- A return from `csum_whole_file`. `pscan_reset_thread` does nothing without a
    structure, and works on what it finds in it otherwise. -/
def leave (w : ScanThread) : ScanThread :=
  { w with tlsProgress := w.tlsProgress.map pscanResetThread, call := .idle }

/-- The registration and the fields of the new file. -/
def begin (filesize : UInt64) (w : ScanThread) : ScanThread :=
  let progress := w.tlsProgress.getD pscanRegisterThread
  { w with
    tlsProgress := some { progress with fileScannedBytes := 0, fileTotalBytes := filesize }
    call := .scanning }

/-- A round of the main loop that processed some bytes. -/
def count (bytes : UInt64) (w : ScanThread) : ScanThread :=
  { w with tlsProgress := w.tlsProgress.map fun progress =>
    { progress with
      fileScannedBytes := progress.fileScannedBytes + bytes
      totalScannedBytes := progress.totalScannedBytes + bytes } }

end ScanThread

/-! ## The scan -/

/-- `struct pscan_global`, whether `db` is set, the files in the queue of the pool by
    their sizes, and the threads. -/
structure ProgressSys where
  totalFilesCount : UInt64
  totalBytesCount : UInt64
  listingCompleted : Bool
  db : Bool
  queue : List UInt64
  threads : List ScanThread
  deriving DecidableEq, Repr

inductive ProgressEvent where
  /-- `__scan_file` schedules a file; `pushed` is the answer of `g_thread_pool_push`. -/
  | schedule (size : UInt64) (pushed : Bool)
  | finishListing
  /-- The pool starts a thread. -/
  | spawn
  /-- The thread `i` takes the file `j`; `prepared` is the answer of `prepare_buffer`. -/
  | enter (i j : Nat) (prepared : Bool)
  /-- `dbfile_open_handle_thread` returns. -/
  | connect (i : Nat) (opened : Bool)
  /-- A round of the main loop. -/
  | count (i : Nat) (bytes : UInt64)
  /-- A return from `csum_whole_file` behind the registration. -/
  | leave (i : Nat)
  deriving DecidableEq, Repr

namespace ProgressSys

def start : ProgressSys := ⟨0, 0, false, false, [], []⟩

/-- `pscan_set_progress` and the push. A file that is not pushed is freed. That
    `g_thread_pool_push` queues the file even when it reports an error is left out. -/
def schedule (s : ProgressSys) (size : UInt64) (pushed : Bool) : ProgressSys :=
  { s with
    totalFilesCount := s.totalFilesCount + 1
    totalBytesCount := s.totalBytesCount + size
    queue := if pushed then s.queue ++ [size] else s.queue }

/-- `csum_whole_file` up to the test of `db`. -/
def enter (s : ProgressSys) (filesize : UInt64) (prepared : Bool) (w : ScanThread) : ScanThread :=
  if prepared then
    let w := { w with buffer := true }
    if s.db then w.begin filesize else { w with call := .connecting filesize }
  else w.leave

/-- One step; `none` when it cannot happen. -/
def step (s : ProgressSys) : ProgressEvent → Option ProgressSys
  | .schedule size pushed => if s.listingCompleted then none else some (s.schedule size pushed)
  | .finishListing => some { s with listingCompleted := true }
  | .spawn => some { s with threads := s.threads ++ [.fresh] }
  | .enter i j prepared =>
    match s.threads[i]?, s.queue[j]? with
    | some w, some filesize =>
      -- a thread that has its buffer does not ask for one
      if w.call = .idle ∧ (w.buffer → prepared) then
        some { s with
          queue := s.queue.eraseIdx j
          threads := s.threads.set i (s.enter filesize prepared w) }
      else none
    | _, _ => none
  | .connect i opened =>
    match s.threads[i]? with
    | some w =>
      match w.call with
      | .connecting filesize =>
        some { s with
          db := opened
          threads := s.threads.set i (if opened then w.begin filesize else w.leave) }
      | _ => none
    | none => none
  | .count i bytes =>
    match s.threads[i]? with
    | some w =>
      if w.call = .scanning then some { s with threads := s.threads.set i (w.count bytes) } else none
    | none => none
  | .leave i =>
    match s.threads[i]? with
    | some w =>
      if w.call = .scanning then some { s with threads := s.threads.set i w.leave } else none
    | none => none

def run (events : List ProgressEvent) : Option ProgressSys := events.foldlM step start

/-- The sums of `print_progress` over the threads that registered. -/
def filesScanned (s : ProgressSys) : UInt64 :=
  ((s.threads.filterMap ScanThread.tlsProgress).map PscanThread.totalScannedFiles).sum

def bytesScanned (s : ProgressSys) : UInt64 :=
  ((s.threads.filterMap ScanThread.tlsProgress).map PscanThread.totalScannedBytes).sum

/-- The condition under which `pscan_progress_thread` goes round again. -/
def keepsPrinting (s : ProgressSys) : Bool :=
  !s.listingCompleted || s.filesScanned != s.totalFilesCount || s.bytesScanned != s.totalBytesCount

/-- No file is in the queue or in the hands of a thread. -/
def Drained (s : ProgressSys) : Prop := s.queue = [] ∧ ∀ w ∈ s.threads, w.call = .idle

end ProgressSys

/-! ## Accounts -/

/-- What a thread has counted and will count for its current call. -/
def ScanThread.files (w : ScanThread) : UInt64 :=
  (w.tlsProgress.map PscanThread.totalScannedFiles).getD 0 +
    match w.call with
    | .idle => 0
    | .connecting _ => 1
    | .scanning => 1

def ScanThread.bytes (w : ScanThread) : UInt64 :=
  (w.tlsProgress.map PscanThread.totalScannedBytes).getD 0 +
    match w.call with
    | .idle => 0
    | .connecting filesize => filesize
    | .scanning =>
      (w.tlsProgress.map fun progress => progress.fileTotalBytes - progress.fileScannedBytes).getD 0

/-- The correction at the end fills a file up to its size, or takes back what was read
    beyond it. -/
theorem pscanResetThread_bytes (progress : PscanThread) :
    (pscanResetThread progress).totalScannedBytes =
      progress.totalScannedBytes + (progress.fileTotalBytes - progress.fileScannedBytes) := by
  simp only [pscanResetThread]
  split_ifs with hmore hless hless
  · exact absurd hless (UInt64.lt_asymm hmore)
  · grind
  · rfl
  · have heq : progress.fileScannedBytes = progress.fileTotalBytes :=
      UInt64.le_antisymm (UInt64.not_lt.1 hmore) (UInt64.not_lt.1 hless)
    rw [heq]
    grind

theorem pscanResetThread_files (progress : PscanThread) :
    (pscanResetThread progress).totalScannedFiles = progress.totalScannedFiles + 1 := by
  simp only [pscanResetThread]
  split_ifs <;> rfl

/-- A return behind the registration pays what the call still owed. -/
theorem ScanThread.leave_accounts {w : ScanThread} {progress : PscanThread}
    (hcall : w.call = .scanning) (htls : w.tlsProgress = some progress) :
    w.leave.files = w.files ∧ w.leave.bytes = w.bytes := by
  simp only [leave, files, bytes, hcall, htls, Option.map_some, Option.getD_some,
    pscanResetThread_files, pscanResetThread_bytes]
  constructor <;> grind

/-- The registration takes over the file with its size. -/
theorem ScanThread.begin_accounts (filesize : UInt64) (w : ScanThread) :
    (w.begin filesize).files = { w with call := .connecting filesize }.files ∧
      (w.begin filesize).bytes = { w with call := .connecting filesize }.bytes := by
  cases htls : w.tlsProgress with
  | none => simp [begin, files, bytes, htls, pscanRegisterThread]
  | some progress => simp [begin, files, bytes, htls]

/-- What is read is counted, and no longer owed. -/
theorem ScanThread.count_accounts {w : ScanThread} (bytesRead : UInt64)
    (hcall : w.call = .scanning) :
    (w.count bytesRead).files = w.files ∧ (w.count bytesRead).bytes = w.bytes := by
  cases htls : w.tlsProgress with
  | none => simp [count, files, bytes, htls]
  | some progress =>
    simp only [count, files, bytes, hcall, htls, Option.map_some, Option.getD_some]
    constructor
    · trivial
    · grind

/-! ## Runs -/

/-- The calls of a step succeed: the push, the allocation of the buffer, and the open of
    the database. What comes behind the registration may fail. -/
def ProgressEvent.Succeeds : ProgressEvent → Prop
  | schedule _ pushed => pushed = true
  | enter _ _ prepared => prepared = true
  | connect _ opened => opened = true
  | _ => True

namespace ProgressSys

variable {s s' : ProgressSys}

/-- The invariant: what the threads have counted and will count, together with the
    queue, makes up the totals. A thread that scans is registered. -/
structure Accounted (s : ProgressSys) : Prop where
  files : (s.threads.map ScanThread.files).sum + (s.queue.map fun _ => 1).sum = s.totalFilesCount
  bytes : (s.threads.map ScanThread.bytes).sum + s.queue.sum = s.totalBytesCount
  registered : ∀ w ∈ s.threads, w.call = .scanning → w.tlsProgress.isSome

theorem accounted_start : Accounted start := ⟨rfl, rfl, by simp [start]⟩

/-- The sum over the queue when a file is taken out. -/
theorem sum_eraseIdx {queue : List UInt64} {j : Nat} {size : UInt64} (hsize : queue[j]? = some size)
    (f : UInt64 → UInt64) :
    ((queue.eraseIdx j).map f).sum + f size = (queue.map f).sum := by
  induction queue generalizing j with
  | nil => cases hsize
  | cons x queue ih =>
    cases j with
    | zero =>
      cases hsize
      simp only [List.eraseIdx_cons_zero, List.map_cons, List.sum_cons]
      grind
    | succ j =>
      have hrest := @ih j (by simpa using hsize)
      simp only [List.eraseIdx_cons_succ, List.map_cons, List.sum_cons]
      grind

/-- A file that is scheduled is in the totals and in the queue. -/
theorem Accounted.schedule (h : Accounted s) (size : UInt64) :
    Accounted (s.schedule size true) := by
  have hfiles := h.files
  have hbytes := h.bytes
  refine ⟨?_, ?_, h.registered⟩
  · simp only [ProgressSys.schedule, if_true, List.map_append, List.sum_append, List.map_cons,
      List.map_nil, List.sum_cons, List.sum_nil]
    grind
  · simp only [ProgressSys.schedule, if_true, List.sum_append, List.sum_cons, List.sum_nil]
    grind

/-- A new thread has counted nothing. -/
theorem Accounted.spawn (h : Accounted s) :
    Accounted { s with threads := s.threads ++ [.fresh] } := by
  have hnone : ScanThread.fresh.files = 0 ∧ ScanThread.fresh.bytes = 0 := ⟨rfl, rfl⟩
  have hfiles := h.files
  have hbytes := h.bytes
  refine ⟨?_, ?_, fun w hw => ?_⟩
  · simp only [List.map_append, List.sum_append, List.map_cons, List.map_nil, List.sum_cons,
      List.sum_nil, hnone]
    grind
  · simp only [List.map_append, List.sum_append, List.map_cons, List.map_nil, List.sum_cons,
      List.sum_nil, hnone]
    grind
  · rcases List.mem_append.1 hw with hw | hw
    · exact h.registered w hw
    · rw [List.mem_singleton.1 hw]
      exact fun hcall => by cases hcall

theorem Accounted.registered_set (h : Accounted s) {w' : ScanThread}
    (hreg : w'.call = .scanning → w'.tlsProgress.isSome) (i : Nat) :
    ∀ v ∈ s.threads.set i w', v.call = .scanning → v.tlsProgress.isSome := by
  intro v hv
  rcases List.mem_or_eq_of_mem_set hv with hv | rfl
  · exact h.registered v hv
  · exact hreg

/-- A thread goes on with its file. -/
theorem Accounted.set {i : Nat} {w w' : ScanThread} (h : Accounted s) (hw : s.threads[i]? = some w)
    (hsame : w'.files = w.files ∧ w'.bytes = w.bytes)
    (hreg : w'.call = .scanning → w'.tlsProgress.isSome) (db : Bool) :
    Accounted { s with db := db, threads := s.threads.set i w' } := by
  have hfiles := Steps.sum_map_set hw ScanThread.files w'
  have hbytes := Steps.sum_map_set hw ScanThread.bytes w'
  rw [hsame.1] at hfiles
  rw [hsame.2] at hbytes
  refine ⟨?_, ?_, h.registered_set hreg i⟩
  · have := h.files
    grind
  · have := h.bytes
    grind

/-- A thread takes a file out of the queue. -/
theorem Accounted.take {i j : Nat} {w w' : ScanThread} {size : UInt64} (h : Accounted s)
    (hw : s.threads[i]? = some w) (hsize : s.queue[j]? = some size)
    (hfiles : w'.files = w.files + 1) (hbytes : w'.bytes = w.bytes + size)
    (hreg : w'.call = .scanning → w'.tlsProgress.isSome) :
    Accounted { s with queue := s.queue.eraseIdx j, threads := s.threads.set i w' } := by
  have hsumFiles := Steps.sum_map_set hw ScanThread.files w'
  have hsumBytes := Steps.sum_map_set hw ScanThread.bytes w'
  have hqueueFiles := sum_eraseIdx hsize fun _ => 1
  have hqueueBytes := sum_eraseIdx hsize id
  simp only [List.map_id, id] at hqueueBytes
  refine ⟨?_, ?_, h.registered_set hreg i⟩
  · have := h.files
    grind
  · have := h.bytes
    grind

/-- A call that gets its buffer owes its file. -/
theorem enter_accounts (s : ProgressSys) (filesize : UInt64) {w : ScanThread}
    (hidle : w.call = .idle) :
    (s.enter filesize true w).files = w.files + 1 ∧
      (s.enter filesize true w).bytes = w.bytes + filesize ∧
      ((s.enter filesize true w).call = .scanning →
        (s.enter filesize true w).tlsProgress.isSome) := by
  have howes : ({ w with buffer := true, call := .connecting filesize } : ScanThread).files =
      w.files + 1 ∧
      ({ w with buffer := true, call := .connecting filesize } : ScanThread).bytes =
        w.bytes + filesize := by
    simp [ScanThread.files, ScanThread.bytes, hidle]
  obtain ⟨hfiles, hbytes⟩ := ScanThread.begin_accounts filesize { w with buffer := true }
  cases hdb : s.db with
  | true =>
    simp only [enter, hdb, if_true]
    exact ⟨hfiles.trans howes.1, hbytes.trans howes.2, fun _ => rfl⟩
  | false =>
    simp only [enter, hdb, if_true, Bool.false_eq_true, if_false]
    exact ⟨howes.1, howes.2, fun hcall => by cases hcall⟩

/-- A step whose calls succeed. -/
theorem Accounted.step {event : ProgressEvent} (h : Accounted s) (hevent : event.Succeeds)
    (hstep : s.step event = some s') : Accounted s' := by
  cases event with
  | schedule size pushed =>
    obtain rfl : pushed = true := hevent
    simp only [ProgressSys.step] at hstep
    split at hstep
    · cases hstep
    · cases hstep
      exact h.schedule size
  | finishListing =>
    cases hstep
    exact ⟨h.files, h.bytes, h.registered⟩
  | spawn =>
    cases hstep
    exact h.spawn
  | enter i j prepared =>
    obtain rfl : prepared = true := hevent
    simp only [ProgressSys.step] at hstep
    split at hstep
    · rename_i w filesize hw hsize
      split at hstep
      · rename_i hidle
        cases hstep
        obtain ⟨hfiles, hbytes, hreg⟩ := s.enter_accounts filesize hidle.1
        exact h.take hw hsize hfiles hbytes hreg
      · cases hstep
    · cases hstep
  | connect i opened =>
    obtain rfl : opened = true := hevent
    simp only [ProgressSys.step] at hstep
    split at hstep
    · rename_i w hw
      split at hstep
      · rename_i filesize hcall
        cases hstep
        have hbegin := ScanThread.begin_accounts filesize w
        rw [← hcall] at hbegin
        exact h.set hw hbegin (fun _ => rfl) true
      · cases hstep
    · cases hstep
  | count i bytes =>
    simp only [ProgressSys.step] at hstep
    split at hstep
    · rename_i w hw
      split at hstep
      · rename_i hcall
        cases hstep
        refine h.set hw (ScanThread.count_accounts bytes hcall) (fun _ => ?_) s.db
        rw [ScanThread.count, Option.isSome_map]
        exact h.registered w (List.mem_of_getElem? hw) hcall
      · cases hstep
    · cases hstep
  | leave i =>
    simp only [ProgressSys.step] at hstep
    split at hstep
    · rename_i w hw
      split at hstep
      · rename_i hcall
        cases hstep
        obtain ⟨progress, htls⟩ := Option.isSome_iff_exists.1
          (h.registered w (List.mem_of_getElem? hw) hcall)
        exact h.set hw (ScanThread.leave_accounts hcall htls) (fun hcall => by cases hcall) s.db
      · cases hstep
    · cases hstep

/-- The sum over the registered threads, when no thread has a file. -/
theorem sum_registered {threads : List ScanThread} (hidle : ∀ w ∈ threads, w.call = .idle) :
    ((threads.filterMap ScanThread.tlsProgress).map PscanThread.totalScannedFiles).sum =
        (threads.map ScanThread.files).sum ∧
      ((threads.filterMap ScanThread.tlsProgress).map PscanThread.totalScannedBytes).sum =
        (threads.map ScanThread.bytes).sum := by
  induction threads with
  | nil => exact ⟨rfl, rfl⟩
  | cons w threads ih =>
    obtain ⟨hfiles, hbytes⟩ := ih fun v hv => hidle v (List.mem_cons_of_mem _ hv)
    have hcall := hidle w List.mem_cons_self
    cases htls : w.tlsProgress with
    | none =>
      simp only [List.filterMap_cons, htls, List.map_cons, List.sum_cons, ScanThread.files,
        ScanThread.bytes, hcall, Option.map_none, Option.getD_none, hfiles, hbytes]
      constructor <;> grind
    | some progress =>
      simp only [List.filterMap_cons, htls, List.map_cons, List.sum_cons, ScanThread.files,
        ScanThread.bytes, hcall, Option.map_some, Option.getD_some, hfiles, hbytes]
      constructor <;> grind

end ProgressSys

/-- In every run in which no push fails, no buffer allocation and no open of the database,
    whatever becomes of the files behind that: once no file is left, the sums over the
    threads are equal to the totals, and after the listing the progress thread ends. -/
theorem progress_complete {events : List ProgressEvent} {s : ProgressSys}
    (hsucceeds : ∀ event ∈ events, event.Succeeds) (hrun : ProgressSys.run events = some s)
    (hdrained : s.Drained) :
    s.filesScanned = s.totalFilesCount ∧ s.bytesScanned = s.totalBytesCount ∧
      (s.listingCompleted = true → s.keepsPrinting = false) := by
  have hacc : s.Accounted := Steps.run_keeps ProgressSys.Accounted
    (fun event hevent _ _ h hstep => h.step (hsucceeds event hevent) hstep)
    ProgressSys.accounted_start hrun
  obtain ⟨hqueue, hidle⟩ := hdrained
  obtain ⟨hfiles, hbytes⟩ := ProgressSys.sum_registered hidle
  have hfiles' : s.filesScanned = s.totalFilesCount := by
    rw [← hacc.files, hqueue, ProgressSys.filesScanned, hfiles]
    simp
  have hbytes' : s.bytesScanned = s.totalBytesCount := by
    rw [← hacc.bytes, hqueue, ProgressSys.bytesScanned, hbytes]
    simp
  refine ⟨hfiles', hbytes', fun hlisted => ?_⟩
  simp [ProgressSys.keepsPrinting, hlisted, hfiles', hbytes']

/-- Two threads, with a file that shrank and one that grew. -/
def changedFiles : List ProgressEvent :=
  [.schedule 8192 true, .spawn, .schedule 4096 true, .enter 0 0 true, .spawn, .enter 1 0 true,
    .connect 1 true, .connect 0 true, .finishListing, .count 0 4096, .leave 0, .count 1 6000,
    .leave 1]

theorem progress_complete_changedFiles :
    ∃ s, ProgressSys.run changedFiles = some s ∧ s.keepsPrinting = false ∧
      s.totalBytesCount = 12288 := by
  have hmap : (ProgressSys.run changedFiles).map (fun s => decide (s.queue = [] ∧
      (∀ w ∈ s.threads, w.call = .idle) ∧ s.listingCompleted = true ∧
        s.totalBytesCount = 12288)) = some true := by
    decide +kernel
  obtain ⟨s, hrun, hall⟩ := Option.map_eq_some_iff.1 hmap
  obtain ⟨hqueue, hidle, hlisted, hbytes⟩ := of_decide_eq_true hall
  have hsucceeds : ∀ event ∈ changedFiles, event.Succeeds := by
    simp [changedFiles, ProgressEvent.Succeeds]
  exact ⟨s, hrun, (progress_complete hsucceeds hrun ⟨hqueue, hidle⟩).2.2 hlisted, hbytes⟩

/-- The database does not open: the file is in the totals, and no thread counts it. -/
theorem progress_incomplete_noDatabase :
    ¬ ∀ (events : List ProgressEvent) (s : ProgressSys), ProgressSys.run events = some s →
      s.Drained → s.listingCompleted = true →
        s.filesScanned = s.totalFilesCount ∧ s.bytesScanned = s.totalBytesCount := by
  intro h
  have hrun : ProgressSys.run [.schedule 4096 true, .finishListing, .spawn, .enter 0 0 true,
      .connect 0 false] = some ⟨1, 4096, true, false, [], [⟨true, none, .idle⟩]⟩ := by
    decide +kernel
  have hbad := h _ _ hrun ⟨rfl, by simp⟩ rfl
  exact absurd hbad.1 (by decide +kernel)

end Duperemove
