-- SUMMARY: File descriptors that dedupe workers share: the reference counts of file records under any interleaving.
import Mathlib.Data.List.Sort
import Duperemove.Dedupe.Context
import Duperemove.Lib.Handles
import Duperemove.Lib.Steps

/-!
# Shared descriptors

A file record has one descriptor for all its users, and counts them. The workers open
records through a list of tokens, at most once for each list, and in plain pairs of
`filerec_open` and `filerec_close`. Here the functions that do so are programs over
file records, which are cut at these calls. Every call is made under
`filerec_fd_mutex`, so it is one step, and the steps of the workers come in any order.
Whether an allocation succeeds and what `fiemap` finds are choices of the surroundings.
-/

namespace Duperemove

open Handles (Prog Safe Returns acquire release ask)

/-! ## The record -/

/-- The fields of `struct filerec` that the mutex guards. -/
structure FdRecord where
  fd : Int
  fdRefs : Nat
  deriving DecidableEq, Repr

/-- `filerec_open`: whether it succeeds, and the record. `answer` is the descriptor that
    `open` gives, and `none` is an abort. -/
def filerecOpen (answer : Option Nat) (file : FdRecord) : Option (Bool × FdRecord) :=
  if file.fdRefs = 0 then
    if file.fd ≠ -1 then none
    else
      match answer with
      | none => some (false, file)
      | some fd => some (true, ⟨fd, file.fdRefs + 1⟩)
  else some (true, { file with fdRefs := file.fdRefs + 1 })

/-- `filerec_close`; `none` is an abort. -/
def filerecClose (file : FdRecord) : Option FdRecord :=
  if file.fd = -1 then none
  else if file.fdRefs = 0 then none
  else
    let file := { file with fdRefs := file.fdRefs - 1 }
    if file.fdRefs = 0 then some { file with fd := -1 } else some file

/-- A record without users has no descriptor, and one with users has. -/
def FdRecord.Sound (file : FdRecord) : Prop := file.fd = -1 ↔ file.fdRefs = 0

theorem filerecOpen_spec {file : FdRecord} (h : file.Sound) (answer : Option Nat) :
    ∃ opened file', filerecOpen answer file = some (opened, file') ∧ file'.Sound ∧
      file'.fdRefs = file.fdRefs + if opened then 1 else 0 := by
  unfold filerecOpen
  by_cases hrefs : file.fdRefs = 0
  · have hfd : file.fd = -1 := h.2 hrefs
    simp only [hrefs, if_true, hfd, ne_eq, not_true_eq_false, if_false]
    cases answer with
    | none => exact ⟨false, file, rfl, h, by simp [hrefs]⟩
    | some fd =>
      refine ⟨true, _, rfl, ?_, by simp⟩
      unfold FdRecord.Sound
      simp only
      omega
  · rw [if_neg hrefs]
    refine ⟨true, _, rfl, ?_, by simp⟩
    unfold FdRecord.Sound at h ⊢
    simp only
    omega

theorem filerecClose_spec {file : FdRecord} (h : file.Sound) (hrefs : 0 < file.fdRefs) :
    ∃ file', filerecClose file = some file' ∧ file'.Sound ∧ file'.fdRefs + 1 = file.fdRefs := by
  have hfd : file.fd ≠ -1 := fun heq => by
    have := h.1 heq
    omega
  unfold filerecClose
  rw [if_neg hfd, if_neg (by omega)]
  simp only
  split
  · rename_i hlast
    exact ⟨_, rfl, by simp [FdRecord.Sound, hlast], by simp only; omega⟩
  · rename_i hmore
    refine ⟨_, rfl, ?_, by simp only; omega⟩
    unfold FdRecord.Sound
    simp only
    exact iff_of_false hfd hmore

/-! ## The users -/

/-- The checks that kill the process. -/
inductive FdAbort where
  /-- `insert_filerec_token_rb` finds a token of the file. -/
  | duplicateToken
  /-- `add_extent_to_dedupe` on a full context. -/
  | addExtent
  /-- The target is reopened although there is none. -/
  | noTarget
  /-- The context is still there behind the loop. -/
  | ctxtLeft
  /-- Files are still open behind the loop. -/
  | openFilesLeft
  deriving DecidableEq, Repr

/-- What a worker does to the descriptors. -/
abbrev FdProg (α : Type) := Prog FileId FdAbort α

/-- `insert_filerec_token_rb`. The tree is the list of its files in order. -/
def insertFilerecToken (file : FileId) (tokens : List FileId) : FdProg (List FileId) :=
  if file ∈ tokens then .abort .duplicateToken else pure (tokens.orderedInsert (· ≤ ·) file)

/-- `filerec_open_once`: whether it succeeds, and the tokens. -/
def openOnce (file : FileId) (tokens : List FileId) : FdProg (Bool × List FileId) := do
  if file ∈ tokens then return (true, tokens)
  let allocated ← ask
  if !allocated then return (false, tokens)
  let opened ← acquire file
  if !opened then return (false, tokens)
  let tokens ← insertFilerecToken file tokens
  return (true, tokens)

/-- `filerec_close_open_list` -/
def closeOpenList : List FileId → FdProg Unit
  | [] => pure ()
  | file :: tokens => do
    release file
    closeOpenList tokens

/-- `add_shared_extents_post` on the files of the extents. -/
def addSharedExtentsPost : List FileId → FdProg Unit
  | [] => pure ()
  | file :: files => do
    let opened ← acquire file
    if !opened then return ()
    let counted ← ask
    release file
    if !counted then return ()
    addSharedExtentsPost files

/-- `fiemap_scan_extent`: whether it returns zero. -/
def fiemapScanExtent (file : FileId) : FdProg Bool := do
  let opened ← acquire file
  if !opened then return false
  let mapped ← ask
  if !mapped then
    release file
    return false
  let found ← ask
  if !found then
    release file
    return false
  release file
  return true

/-! ## The driver -/

/-- The variables of `dedupe_extent_list` that decide which files are open. -/
structure FdDriver where
  ctxt : Option DedupeCtxt
  tgtExtent : Option Extent
  tokens : List FileId

/-- How a round of the loop ends: with the next extent, with a `break`, or with a jump to
    `out` after an allocation failed. -/
inductive FdRound where
  | next (d : FdDriver)
  | leave (d : FdDriver)
  | noMemory (d : FdDriver)

/-- From the label `close_files` to the end of the round. -/
def fdCloseFiles (last : Bool) (d : FdDriver) : FdProg FdRound := do
  closeOpenList d.tokens
  let d := { d with tokens := [], ctxt := none }
  if last then return .next d
  match d.tgtExtent with
  | none => .abort .noTarget
  | some tgt =>
    let (opened, tokens) ← openOnce tgt.eFile d.tokens
    if opened then return .next { d with tokens := tokens }
    return .leave { d with tokens := tokens }

/-- Queue an extent. `dedupe_extents` uses the descriptors and leaves them open, so the
    jump to `run_dedupe` goes on to `close_files` here. -/
def fdQueueExtent (last : Bool) (d : FdDriver) (ctxt : DedupeCtxt) (e : Extent) :
    FdProg FdRound := do
  let allocated ← ask
  match addExtentToDedupe ctxt e.eLoff e.eFile with
  | none => .abort .addExtent
  | some (rc, queued) =>
    if !allocated then return .noMemory { d with ctxt := some ctxt }
    let d := { d with ctxt := some queued }
    if rc ≠ 0 ∧ last = false then return .next d
    fdCloseFiles last d

/-- One round of the loop over a group of `n` extents of length `len`. -/
def fdRound (n len : Nat) (last : Bool) (e : Extent) (d : FdDriver) : FdProg FdRound := do
  let (opened, tokens) ← openOnce e.eFile d.tokens
  let d := { d with tokens := tokens }
  if !opened then
    if d.ctxt.isSome && last then fdCloseFiles last d else return .next d
  else
    match d.ctxt, d.tgtExtent with
    | some ctxt, _ => fdQueueExtent last d ctxt e
    | none, some tgt =>
      let allocated ← ask
      if !allocated then return .noMemory d
      fdQueueExtent last d (newDedupeCtxt n tgt.eLoff len tgt.eFile) e
    | none, none =>
      if last then fdCloseFiles last d
      else
        let d := { d with tgtExtent := some e }
        let allocated ← ask
        if !allocated then return .noMemory d
        return .next { d with ctxt := some (newDedupeCtxt n e.eLoff len e.eFile) }

/-- The loop from some extent of the group on. -/
def fdLoop (n len : Nat) : List Extent → FdDriver → FdProg FdRound
  | [], d => pure (.leave d)
  | e :: rest, d => do
    match ← fdRound n len rest.isEmpty e d with
    | .next d => fdLoop n len rest d
    | .leave d => return .leave d
    | .noMemory d => return .noMemory d

def enomem : Int := 12

def dedupeExtentsCleaned : Int := -1

/-- `dedupe_extent_list` on the extents that `clean_deduped` left, `none` when it freed
    the group. -/
def fdDedupeExtentList (len : Nat) (cleaned : Option (List Extent)) : FdProg Int := do
  match cleaned with
  | none => return dedupeExtentsCleaned
  | some extents =>
    match ← fdLoop extents.length len extents ⟨none, none, []⟩ with
    | .noMemory d =>
      closeOpenList d.tokens
      return enomem
    | .next d | .leave d =>
      if d.ctxt.isSome then .abort .ctxtLeft
      else if d.tokens ≠ [] then .abort .openFilesLeft
      else
        addSharedExtentsPost (extents.map Extent.eFile)
        closeOpenList d.tokens
        return 0

/-- The loop of `extent_dedupe_worker` over the group. -/
def scanExtents : List Extent → FdProg Unit
  | [] => pure ()
  | e :: extents => do
    let _ ← fiemapScanExtent e.eFile
    scanExtents extents

/-- A group as a worker takes it from the pool. -/
structure FdGroup where
  len : Nat
  cleaned : Option (List Extent)

/-- `extent_dedupe_worker` -/
def fdWorker (wholeFileDedup : Bool) (g : FdGroup) : FdProg Unit := do
  let ret ← fdDedupeExtentList g.len g.cleaned
  if ret ≠ 0 then return ()
  if wholeFileDedup then return ()
  scanExtents (g.cleaned.getD [])

/-- A thread of the pool with the groups that it gets. -/
def fdThread (wholeFileDedup : Bool) : List FdGroup → FdProg Unit
  | [] => pure ()
  | g :: groups => do
    fdWorker wholeFileDedup g
    fdThread wholeFileDedup groups

/-! ## Every user gives back what it took -/

section Users

variable {held tokens : List FileId} {file : FileId}

/-- The aborts that are not about tokens. -/
def NoDuplicateToken (reason : FdAbort) : Prop := reason ≠ .duplicateToken

/-- The tokens are those of the files that are held. -/
def Tokens (held tokens : List FileId) : Prop := held.Perm tokens ∧ tokens.Nodup

theorem safe_openOnce (h : Tokens held tokens) (file : FileId) :
    Safe NoDuplicateToken (openOnce file tokens) held fun r l => Tokens l r.2 := by
  unfold openOnce
  split
  · exact h
  · rename_i hnew
    have hheld : file ∉ held := fun hin => hnew (h.1.mem_iff.1 hin)
    refine Handles.safe_ask.bind ?_
    rintro allocated _ rfl
    cases allocated with
    | false => exact h
    | true =>
      refine (Handles.safe_acquire hheld).bind ?_
      rintro opened _ rfl
      cases opened with
      | false => exact h
      | true =>
        simp only [insertFilerecToken, if_neg hnew]
        refine ⟨?_, ?_⟩
        · exact (List.Perm.cons file h.1).trans (List.perm_orderedInsert (· ≤ ·) file tokens).symm
        · exact (List.perm_orderedInsert (· ≤ ·) file tokens).nodup_iff.2
            (List.nodup_cons.2 ⟨hnew, h.2⟩)

theorem safe_closeOpenList (h : held.Perm tokens) :
    Safe NoDuplicateToken (closeOpenList tokens) held fun _ l => l = [] := by
  induction tokens generalizing held with
  | nil => exact h.eq_nil
  | cons file tokens ih =>
    obtain ⟨hin, hrest⟩ := List.cons_perm_iff_perm_erase.1 h.symm
    refine (Handles.safe_release hin).bind ?_
    rintro _ _ rfl
    exact ih hrest.symm

/-- The release of the only handle. -/
theorem safe_releaseLast (file : FileId) :
    Safe NoDuplicateToken (release file) [file] fun _ l => l = [] := by
  refine (Handles.safe_release List.mem_cons_self).mono ?_
  rintro _ _ rfl
  exact List.erase_cons_head ..

theorem safe_addSharedExtentsPost (files : List FileId) :
    Safe NoDuplicateToken (addSharedExtentsPost files) [] fun _ l => l = [] := by
  induction files with
  | nil => rfl
  | cons file files ih =>
    refine (Handles.safe_acquire List.not_mem_nil).bind ?_
    rintro opened _ rfl
    cases opened with
    | false => rfl
    | true =>
      refine Handles.safe_ask.bind ?_
      rintro counted _ rfl
      refine (safe_releaseLast file).bind ?_
      rintro _ _ rfl
      cases counted with
      | false => rfl
      | true => exact ih

theorem safe_fiemapScanExtent (file : FileId) :
    Safe NoDuplicateToken (fiemapScanExtent file) [] fun _ l => l = [] := by
  refine (Handles.safe_acquire List.not_mem_nil).bind ?_
  rintro opened _ rfl
  cases opened with
  | false => rfl
  | true =>
    refine Handles.safe_ask.bind ?_
    rintro mapped _ rfl
    cases mapped with
    | false => exact (safe_releaseLast file).bind fun _ _ hl => hl
    | true =>
      refine Handles.safe_ask.bind ?_
      rintro found _ rfl
      cases found with
      | false => exact (safe_releaseLast file).bind fun _ _ hl => hl
      | true => exact (safe_releaseLast file).bind fun _ _ hl => hl

/-- The variables at the end of a round. -/
def FdRound.driver : FdRound → FdDriver
  | next d => d
  | leave d => d
  | noMemory d => d

/-- A round ends with tokens for the files that are open. -/
def RoundEnd (r : FdRound) (held : List FileId) : Prop := Tokens held r.driver.tokens

theorem tokens_nil : Tokens [] [] := ⟨List.Perm.refl _, List.nodup_nil⟩

theorem safe_fdCloseFiles {d : FdDriver} (h : Tokens held d.tokens) (last : Bool) :
    Safe NoDuplicateToken (fdCloseFiles last d) held RoundEnd := by
  refine (safe_closeOpenList h.1).bind ?_
  rintro _ _ rfl
  cases last with
  | true => exact tokens_nil
  | false =>
    cases htgt : d.tgtExtent with
    | none =>
      simp only [Bool.false_eq_true, if_false]
      exact fun heq => by cases heq
    | some tgt =>
      simp only [Bool.false_eq_true, if_false]
      refine (safe_openOnce tokens_nil tgt.eFile).bind ?_
      rintro ⟨opened, tokens⟩ l hl
      cases opened with
      | true => exact hl
      | false => exact hl

theorem safe_fdQueueExtent {d : FdDriver} (h : Tokens held d.tokens) (last : Bool)
    (ctxt : DedupeCtxt) (e : Extent) :
    Safe NoDuplicateToken (fdQueueExtent last d ctxt e) held RoundEnd := by
  intro allocated
  simp only [Prog.bind]
  cases addExtentToDedupe ctxt e.eLoff e.eFile with
  | none => exact fun heq => by cases heq
  | some r =>
    cases allocated with
    | false => exact h
    | true =>
      simp only [Bool.not_true, Bool.false_eq_true, if_false]
      split
      · exact h
      · exact safe_fdCloseFiles h last

theorem safe_fdRound {d : FdDriver} (h : Tokens held d.tokens) (n len : Nat) (last : Bool)
    (e : Extent) : Safe NoDuplicateToken (fdRound n len last e d) held RoundEnd := by
  refine (safe_openOnce h e.eFile).bind ?_
  rintro ⟨opened, tokens⟩ l hl
  have hl : Tokens l tokens := hl
  cases opened with
  | false =>
    simp only [Bool.not_false, if_true]
    split
    · exact safe_fdCloseFiles hl last
    · exact hl
  | true =>
    simp only [Bool.not_true, Bool.false_eq_true, if_false]
    split
    · exact safe_fdQueueExtent hl last _ e
    · intro allocated
      cases allocated with
      | false => exact hl
      | true => exact safe_fdQueueExtent hl last _ e
    · cases last with
      | true => exact safe_fdCloseFiles hl true
      | false =>
        intro allocated
        cases allocated with
        | false => exact hl
        | true => exact hl

theorem safe_fdLoop (n len : Nat) (extents : List Extent) {d : FdDriver}
    (h : Tokens held d.tokens) :
    Safe NoDuplicateToken (fdLoop n len extents d) held RoundEnd := by
  induction extents generalizing held d with
  | nil => exact h
  | cons e rest ih =>
    refine (safe_fdRound h n len rest.isEmpty e).bind ?_
    rintro r l hl
    cases r with
    | next d => exact ih hl
    | leave d => exact hl
    | noMemory d => exact hl

theorem safe_fdDedupeExtentList (len : Nat) (cleaned : Option (List Extent)) :
    Safe NoDuplicateToken (fdDedupeExtentList len cleaned) [] fun _ l => l = [] := by
  cases cleaned with
  | none => rfl
  | some extents =>
    refine (safe_fdLoop extents.length len extents tokens_nil).bind ?_
    have hend : ∀ (d : FdDriver) (l : List FileId), Tokens l d.tokens →
        Safe NoDuplicateToken (if d.ctxt.isSome then .abort .ctxtLeft
          else if d.tokens ≠ [] then .abort .openFilesLeft
          else do
            addSharedExtentsPost (extents.map Extent.eFile)
            closeOpenList d.tokens
            return 0 : FdProg Int) l fun _ l => l = [] := by
      intro d l hl
      split
      · exact fun heq => by cases heq
      · split
        · exact fun heq => by cases heq
        · rename_i hempty
          rw [ne_eq, not_not] at hempty
          obtain rfl : l = [] := by
            have := hl.1
            rw [hempty] at this
            exact this.eq_nil
          refine (safe_addSharedExtentsPost _).bind ?_
          rintro _ _ rfl
          rw [hempty]
          exact rfl
    rintro r l hl
    cases r with
    | next d => exact hend d l hl
    | leave d => exact hend d l hl
    | noMemory d =>
      refine (safe_closeOpenList hl.1).bind ?_
      rintro _ _ rfl
      exact rfl

theorem safe_scanExtents (extents : List Extent) :
    Safe NoDuplicateToken (scanExtents extents) [] fun _ l => l = [] := by
  induction extents with
  | nil => rfl
  | cons e extents ih =>
    refine (safe_fiemapScanExtent e.eFile).bind ?_
    rintro _ _ rfl
    exact ih

theorem safe_fdWorker (wholeFileDedup : Bool) (g : FdGroup) :
    Safe NoDuplicateToken (fdWorker wholeFileDedup g) [] fun _ l => l = [] := by
  refine (safe_fdDedupeExtentList g.len g.cleaned).bind ?_
  rintro ret _ rfl
  split
  · rfl
  · split
    · rfl
    · exact safe_scanExtents _

theorem safe_fdThread (wholeFileDedup : Bool) (groups : List FdGroup) :
    Safe NoDuplicateToken (fdThread wholeFileDedup groups) [] fun _ l => l = [] := by
  induction groups with
  | nil => rfl
  | cons g groups ih =>
    refine (safe_fdWorker wholeFileDedup g).bind ?_
    rintro _ _ rfl
    exact ih

end Users

/-! ## The pool -/

/-- A worker: what it still has to do, and its opens that were successful and are not
    closed yet. -/
structure FdThread where
  prog : FdProg Unit
  held : List FileId

/-- The file records, the workers, and whether `filerec_open` or `filerec_close` has
    aborted. -/
structure FdSys where
  files : FileId → FdRecord
  threads : List FdThread
  aborted : Bool

/-- The worker `thread` makes its next step. If that opens a file, `fd` is the answer of
    `open`; if it asks its surroundings, `choice` is the answer. -/
structure FdEvent where
  thread : Nat
  fd : Option Nat
  choice : Bool

namespace FdSys

/-- A pass over groups that are spread over the workers in any way. -/
def start (wholeFileDedup : Bool) (work : List (List FdGroup)) : FdSys where
  files := fun _ => ⟨-1, 0⟩
  threads := work.map fun groups => ⟨fdThread wholeFileDedup groups, []⟩
  aborted := false

def setFile (s : FdSys) (file : FileId) (r : FdRecord) : FdSys :=
  { s with files := fun f => if f = file then r else s.files f }

def setThread (s : FdSys) (i : Nat) (t : FdThread) : FdSys :=
  { s with threads := s.threads.set i t }

/-- One step; `none` when the worker is done, or the process dead. -/
def step (s : FdSys) (e : FdEvent) : Option FdSys :=
  if s.aborted then none
  else
    match s.threads[e.thread]? with
    | none => none
    | some t =>
      match t.prog with
      | .ret _ => none
      | .abort _ => none
      | .ask next => some (s.setThread e.thread ⟨next e.choice, t.held⟩)
      | .acquire file next =>
        match filerecOpen e.fd (s.files file) with
        | none => some { s with aborted := true }
        | some (opened, r) =>
          some ((s.setFile file r).setThread e.thread
            ⟨next opened, if opened then file :: t.held else t.held⟩)
      | .release file next =>
        match filerecClose (s.files file) with
        | none => some { s with aborted := true }
        | some r => some ((s.setFile file r).setThread e.thread ⟨next, t.held.erase file⟩)

def run (s : FdSys) (events : List FdEvent) : Option FdSys := events.foldlM step s

/-- The successful opens of a file that are not closed yet. -/
def openCount (s : FdSys) (file : FileId) : Nat :=
  (s.threads.map fun t => t.held.count file).sum

/-- The invariant: the counts are right, and every worker will give back what it holds. -/
structure Counted (s : FdSys) : Prop where
  alive : s.aborted = false
  refs : ∀ file, (s.files file).fdRefs = s.openCount file
  sound : ∀ file, (s.files file).Sound
  safe : ∀ t ∈ s.threads, Safe NoDuplicateToken t.prog t.held fun _ l => l = []
  nodup : ∀ t ∈ s.threads, t.held.Nodup

theorem counted_start (wholeFileDedup : Bool) (work : List (List FdGroup)) :
    Counted (start wholeFileDedup work) where
  alive := rfl
  refs := by
    intro file
    have hnone : (start wholeFileDedup work).openCount file = (work.map fun _ => 0).sum := by
      rw [openCount, start, List.map_map]
      rfl
    rw [hnone]
    simp [start]
  sound := fun _ => by simp [start, FdRecord.Sound]
  safe := by
    intro t ht
    obtain ⟨groups, -, rfl⟩ := List.mem_map.1 ht
    exact safe_fdThread wholeFileDedup groups
  nodup := by
    intro t ht
    obtain ⟨groups, -, rfl⟩ := List.mem_map.1 ht
    exact List.nodup_nil

variable {s s' : FdSys}

/-- The counts of a state in which a worker has changed. -/
theorem openCount_setThread {i : Nat} {t : FdThread} (ht : s.threads[i]? = some t) (t' : FdThread)
    (file : FileId) :
    (s.setThread i t').openCount file + t.held.count file =
      s.openCount file + t'.held.count file :=
  Steps.sum_map_set ht (fun t => t.held.count file) t'

/-- A file that a worker holds is counted. -/
theorem Counted.pos {t : FdThread} {file : FileId} (h : Counted s) (ht : t ∈ s.threads)
    (hfile : file ∈ t.held) : 0 < (s.files file).fdRefs := by
  rw [h.refs, openCount, List.sum_pos_iff_exists_pos_nat]
  exact ⟨_, List.mem_map.2 ⟨t, ht, rfl⟩, List.count_pos_iff.2 hfile⟩

/-- A worker goes on, with a file that it has opened or closed, or none. -/
theorem Counted.move {i : Nat} {t t' : FdThread} {file : FileId} {r : FdRecord} (h : Counted s)
    (ht : s.threads[i]? = some t) (hsound : r.Sound)
    (hrefs : r.fdRefs + t.held.count file = (s.files file).fdRefs + t'.held.count file)
    (hothers : ∀ f, f ≠ file → t'.held.count f = t.held.count f)
    (hsafe : Safe NoDuplicateToken t'.prog t'.held fun _ l => l = []) (hnodup : t'.held.Nodup) :
    Counted ((s.setFile file r).setThread i t') := by
  have hsame : ∀ f, ((s.setFile file r).setThread i t').openCount f + t.held.count f =
      s.openCount f + t'.held.count f := openCount_setThread ht t'
  have hthreads : ∀ v ∈ ((s.setFile file r).setThread i t').threads, v ∈ s.threads ∨ v = t' :=
    fun v hv => List.mem_or_eq_of_mem_set hv
  refine ⟨h.alive, ?_, ?_, ?_, ?_⟩
  · intro f
    have hcount := hsame f
    have hold := h.refs f
    by_cases hf : f = file
    · subst hf
      simp only [setThread, setFile, if_true] at hcount ⊢
      omega
    · have hother := hothers f hf
      simp only [setThread, setFile, if_neg hf] at hcount ⊢
      omega
  · intro f
    by_cases hf : f = file
    · simpa [setThread, setFile, hf] using hsound
    · simpa [setThread, setFile, hf] using h.sound f
  · intro v hv
    rcases hthreads v hv with hv | rfl
    · exact h.safe v hv
    · exact hsafe
  · intro v hv
    rcases hthreads v hv with hv | rfl
    · exact h.nodup v hv
    · exact hnodup

theorem setFile_self (s : FdSys) (file : FileId) : s.setFile file (s.files file) = s := by
  have hfiles : (fun f => if f = file then s.files file else s.files f) = s.files := by
    funext f
    split
    · rename_i heq
      rw [heq]
    · rfl
  rw [setFile, hfiles]

theorem Counted.step {e : FdEvent} (h : Counted s) (hstep : s.step e = some s') : Counted s' := by
  simp only [FdSys.step, h.alive, Bool.false_eq_true, if_false] at hstep
  split at hstep
  · cases hstep
  · rename_i t ht
    have hin := List.mem_of_getElem? ht
    have hsafe := h.safe t hin
    split at hstep
    · cases hstep
    · cases hstep
    · rename_i next hprog
      rw [hprog] at hsafe
      cases hstep
      rw [← setFile_self s 0]
      exact h.move ht (h.sound 0) rfl (fun _ _ => rfl) (hsafe e.choice) (h.nodup t hin)
    · rename_i file next hprog
      rw [hprog] at hsafe
      obtain ⟨hnew, hrefused, hacquired⟩ := hsafe
      obtain ⟨opened, r, hopen, hsound, hrefs⟩ := filerecOpen_spec (h.sound file) e.fd
      rw [hopen] at hstep
      cases hstep
      cases opened with
      | false =>
        exact h.move ht hsound (by simp [hrefs]) (fun _ _ => rfl) hrefused (h.nodup t hin)
      | true =>
        refine h.move ht hsound ?_ ?_ hacquired (List.nodup_cons.2 ⟨hnew, h.nodup t hin⟩)
        · simp only [hrefs, if_true, List.count_cons_self]
          omega
        · exact fun f hf => List.count_cons_of_ne (Ne.symm hf)
    · rename_i file next hprog
      rw [hprog] at hsafe
      obtain ⟨hheld, hnext⟩ := hsafe
      obtain ⟨r, hclose, hsound, hrefs⟩ := filerecClose_spec (h.sound file) (h.pos hin hheld)
      rw [hclose] at hstep
      cases hstep
      refine h.move ht hsound ?_ ?_ hnext ((h.nodup t hin).erase file)
      · have hcount := List.count_pos_iff.2 hheld
        simp only [List.count_erase_self]
        omega
      · exact fun f hf => List.count_erase_of_ne hf

theorem length_of_step {e : FdEvent} (hstep : s.step e = some s') :
    s'.threads.length = s.threads.length := by
  simp only [FdSys.step] at hstep
  split at hstep
  · cases hstep
  · split at hstep
    · cases hstep
    · split at hstep
      · cases hstep
      · cases hstep
      · cases hstep
        exact List.length_set
      · split at hstep <;> cases hstep
        · rfl
        · exact List.length_set
      · split at hstep <;> cases hstep
        · rfl
        · exact List.length_set

/-- No worker holds a file twice, so a file has at most one user for each worker. -/
theorem Counted.refs_le (h : Counted s) (file : FileId) :
    (s.files file).fdRefs ≤ s.threads.length := by
  rw [h.refs, openCount]
  have hnodup := h.nodup
  generalize s.threads = threads at hnodup
  induction threads with
  | nil => exact le_rfl
  | cons t threads ih =>
    have hone := List.nodup_iff_count_le_one.1 (hnodup t List.mem_cons_self) file
    have hrest := ih fun v hv => hnodup v (List.mem_cons_of_mem _ hv)
    simp only [List.map_cons, List.sum_cons, List.length_cons]
    omega

end FdSys

/-- Over every interleaving of any number of workers, whatever groups they get, and
    whichever opens, allocations and calls of `fiemap` fail: `filerec_open` and
    `filerec_close` do not abort, and no token is inserted twice. Each record has no
    descriptor exactly when it has no users, its count is that of the opens that are not
    closed yet, and it has at most one user for each worker. A call that returns has
    closed what it opened. -/
theorem fdRefs_counted (wholeFileDedup : Bool) (work : List (List FdGroup))
    {events : List FdEvent} {s : FdSys}
    (hrun : (FdSys.start wholeFileDedup work).run events = some s) :
    s.aborted = false ∧
    (∀ t ∈ s.threads, t.prog ≠ .abort .duplicateToken) ∧
    (∀ file, ((s.files file).fd = -1 ↔ (s.files file).fdRefs = 0) ∧
      (s.files file).fdRefs = s.openCount file ∧ (s.files file).fdRefs ≤ work.length) ∧
    (∀ len cleaned ret held, Returns (fdDedupeExtentList len cleaned) [] ret held → held = []) ∧
    (∀ files held, Returns (addSharedExtentsPost files) [] () held → held = []) ∧
    (∀ file ret held, Returns (fiemapScanExtent file) [] ret held → held = []) := by
  have hcounted : s.Counted ∧ s.threads.length = work.length := by
    refine Steps.run_keeps (fun s => s.Counted ∧ s.threads.length = work.length) ?_
      ⟨FdSys.counted_start wholeFileDedup work, by simp [FdSys.start]⟩ hrun
    rintro event - s s' ⟨hs, hlen⟩ hstep
    exact ⟨hs.step hstep, (FdSys.length_of_step hstep).trans hlen⟩
  obtain ⟨hs, hlen⟩ := hcounted
  refine ⟨hs.alive, ?_, ?_, ?_, ?_, ?_⟩
  · intro t ht hprog
    have hsafe := hs.safe t ht
    rw [hprog] at hsafe
    exact hsafe rfl
  · exact fun file => ⟨hs.sound file, hs.refs file, hlen ▸ hs.refs_le file⟩
  · exact fun len cleaned ret held h => (safe_fdDedupeExtentList len cleaned).returns h
  · exact fun files held h => (safe_addSharedExtentsPost files).returns h
  · exact fun file ret held h => (safe_fiemapScanExtent file).returns h

/-- Two groups with a file in common, for a worker each. The second worker fails to open
    the last file of its group. -/
def sharedFile : List (List FdGroup) :=
  [[⟨4096, some [⟨0, 0⟩, ⟨1, 0⟩]⟩], [⟨4096, some [⟨0, 8192⟩, ⟨2, 0⟩]⟩]]

/-- The workers open the common file one after the other. -/
def sharedOpens : List FdEvent :=
  [⟨0, none, true⟩, ⟨0, some 3, true⟩, ⟨1, none, true⟩, ⟨1, none, true⟩, ⟨1, none, true⟩,
    ⟨1, none, true⟩, ⟨1, none, true⟩]

theorem fdRefs_counted_sharedFile :
    ∃ s, (FdSys.start true sharedFile).run sharedOpens = some s ∧
      s.files 0 = ⟨3, 2⟩ ∧ s.openCount 0 = 2 ∧ s.aborted = false := by
  have hmap : ((FdSys.start true sharedFile).run sharedOpens).map (fun s => s.files 0) =
      some ⟨3, 2⟩ := by
    decide +kernel
  obtain ⟨s, hrun, hfile⟩ := Option.map_eq_some_iff.1 hmap
  obtain ⟨halive, -, hcounts, -⟩ := fdRefs_counted true sharedFile hrun
  refine ⟨s, hrun, hfile, ?_, halive⟩
  rw [← (hcounts 0).2.1, hfile]

end Duperemove
