-- SUMMARY: The request lists of a dedupe context in memory: from `add_extent_to_dedupe` over `dedupe_extents` to the last result.
import Duperemove.Dedupe.Conservation
import Duperemove.ListHead

/-!
# A dedupe context in memory

The model of `dedupe_extents` has its requests in three Lean lists. In the program these are
rings through the requests, and a request is moved from one to another while the loop that
came to it still runs. Here every transition of the model makes the calls of `list.h` that the
source makes in it, on one memory.

The memory holds the three lists of the model in every state of a run. So the test of the
`while` loop and the two pointers of each traversal, which the program reads from the memory,
are those that the model takes from its lists.
-/

namespace Duperemove

open ListMem (ListOp)

/-- The nodes of a context: the heads of its lists, and one in each request. -/
inductive CtxtNode where
  | queued
  | inProgress
  | completed
  | req (id : Nat)
  deriving DecidableEq, Repr

def reqNodes (reqs : List DedupeReq) : List CtxtNode := reqs.map fun r => .req r.id

theorem reqNodes_append (reqs reqs' : List DedupeReq) :
    reqNodes (reqs ++ reqs') = reqNodes reqs ++ reqNodes reqs' := List.map_append

/-- Three lists of requests by their heads. -/
def requestLists (queued inProgress completed : List DedupeReq) :
    CtxtNode → Option (List CtxtNode)
  | .queued => some (reqNodes queued)
  | .inProgress => some (reqNodes inProgress)
  | .completed => some (reqNodes completed)
  | .req _ => none

def DedupeCtxt.lists (ctxt : DedupeCtxt) : CtxtNode → Option (List CtxtNode) :=
  requestLists ctxt.queued ctxt.inProgress ctxt.completed

section Update

open Function (update)

variable {queued inProgress completed reqs : List DedupeReq}

@[simp] theorem requestLists_queued :
    update (requestLists queued inProgress completed) .queued (some (reqNodes reqs)) =
      requestLists reqs inProgress completed := by
  funext a
  cases a <;> simp [requestLists, update]

@[simp] theorem requestLists_inProgress :
    update (requestLists queued inProgress completed) .inProgress (some (reqNodes reqs)) =
      requestLists queued reqs completed := by
  funext a
  cases a <;> simp [requestLists, update]

@[simp] theorem requestLists_completed :
    update (requestLists queued inProgress completed) .completed (some (reqNodes reqs)) =
      requestLists queued inProgress reqs := by
  funext a
  cases a <;> simp [requestLists, update]

@[simp] theorem requestLists_req {id : Nat} :
    update (requestLists queued inProgress completed) (.req id) none =
      requestLists queued inProgress completed := by
  funext a
  cases a <;> simp [requestLists, update]

end Update

-- ---------------------------------------------------------------------------
-- The calls
-- ---------------------------------------------------------------------------

/-- The calls of `new_dedupe_ctxt`. -/
def newCtxtOps : List (ListOp CtxtNode) := [.init .queued, .init .inProgress, .init .completed]

/-- The calls of `new_dedupe_req` and `add_extent_to_dedupe`. -/
def addExtentOps (id : Nat) : List (ListOp CtxtNode) :=
  [.init (.req id), .addTail (.req id) .queued]

/-- The calls of a transition of `dedupe_extents`. The abort of `add_dedupe_request` comes in
    front of its call. -/
def DedupeRun.listOps (s : DedupeRun) : List (ListOp CtxtNode) :=
  match s.pc with
  | .populating cursor =>
    match cursor.cur.bind (SafeList.at? DedupeReq.id s.ctxt.queued) with
    | none => []
    | some req =>
      match addDedupeRequest s.ctxt s.ctxt.same req with
      | none => []
      | some _ => [.moveTail (.req req.id) .inProgress]
  | .processing cursor maxDeduped =>
    match cursor.cur.bind (SafeList.at? DedupeReq.id s.ctxt.inProgress) with
    | none =>
      if s.fsBlocksize ≠ 0 ∧ Word.sub 64 s.ctxt.len maxDeduped < s.fsBlocksize then
        [.spliceInit .queued .completed]
      else []
    | some req =>
      let info := s.ctxt.same.infoAt req.reqIdx
      if info.status ≠ 0 ∨ (req.advance info.bytesDeduped).reqTotal ≥ s.ctxt.origLen then
        [.moveTail (.req req.id) .completed]
      else [.moveTail (.req req.id) .queued]
  | _ => []

/-- The calls of the first `n` transitions. -/
def DedupeRun.runListOps (kernel : Nat → KernelAnswer) (s : DedupeRun) :
    Nat → List (ListOp CtxtNode)
  | 0 => []
  | n + 1 => s.runListOps kernel n ++ ((step kernel)^[n] s).listOps

/-- `pop_one_dedupe_result` on the memory: the node it takes out, and whether the list is empty
    behind it. `none` is the abort. -/
def popOneNode (h : ListMem CtxtNode) : Option (CtxtNode × Bool × ListMem CtxtNode) :=
  if h.listEmpty .completed then none
  else do
    let entry ← (h.node .completed).next
    let h ← h.listDelInit entry
    return (entry, h.listEmpty .completed, h)

/-- The loop of `process_dedupe_results` on the memory, of at most `fuel` rounds. -/
def popNodes : Nat → ListMem CtxtNode → Option (List CtxtNode × ListMem CtxtNode)
  | 0, _ => none
  | fuel + 1, h => do
    let (entry, done, h) ← popOneNode h
    if done then return ([entry], h)
    else do
      let (entries, h) ← popNodes fuel h
      return (entry :: entries, h)

-- ---------------------------------------------------------------------------
-- What the memory is read for
-- ---------------------------------------------------------------------------

/-- A pointer of a traversal; `none` is its end at the head. -/
def nodeAt (head : CtxtNode) : Option Nat → CtxtNode
  | none => head
  | some id => .req id

/-- The pointers `pos` and `n` of `list_for_each_entry_safe` at the start of a round. -/
structure CursorAt (h : ListMem CtxtNode) (head : CtxtNode) (cursor : SafeList.Cursor Nat) :
    Prop where
  pos : (h.node head).next = some (nodeAt head cursor.cur)
  n : ∀ id, cursor.cur = some id → (h.node (.req id)).next = some (nodeAt head cursor.tmp)

/-- What `dedupe_extents` reads from the memory is what the state has. -/
structure DedupeRun.ReadsMemory (s : DedupeRun) (h : ListMem CtxtNode) : Prop where
  test : h.listEmpty .queued = true ↔ s.ctxt.queued = []
  populating : ∀ cursor, s.pc = .populating cursor → CursorAt h .queued cursor
  processing : ∀ cursor maxDeduped, s.pc = .processing cursor maxDeduped →
    CursorAt h .inProgress cursor

section Memory

open Function (update)

variable (poison : CtxtNode × CtxtNode) {h : ListMem CtxtNode} {ctxt : DedupeCtxt}

theorem reqNodes_eq_nil_iff {reqs : List DedupeReq} : reqNodes reqs = [] ↔ reqs = [] :=
  List.map_eq_nil_iff

theorem cursorAt_first {head : CtxtNode} {reqs : List DedupeReq}
    (hring : h.Ring head (reqNodes reqs)) : CursorAt h head (.first DedupeReq.id reqs) := by
  cases reqs with
  | nil =>
    obtain ⟨v, l₂, hv, hnext⟩ := hring.behind
    obtain ⟨rfl, -⟩ := List.cons.inj hv
    exact ⟨hnext, fun id hid => by cases hid⟩
  | cons req rest =>
    obtain ⟨v, l₂, hv, hnext⟩ := hring.behind
    obtain ⟨rfl, -⟩ := List.cons.inj hv
    refine ⟨hnext, fun id hid => ?_⟩
    obtain rfl : req.id = id := Option.some.inj hid
    have hsecond := @ListMem.Ring.next_eq _ h head (.req req.id) [] _ hring
    cases rest with
    | nil => exact hsecond
    | cons req' rest => exact hsecond

theorem readsMemory {s : DedupeRun} {added : List (Nat × FileId)} (hinv : s.Inv added)
    (hh : h.Holds s.ctxt.lists) : s.ReadsMemory h := by
  refine ⟨?_, fun cursor hpc => ?_, fun cursor maxDeduped hpc => ?_⟩
  · exact (hh.ring .queued _ rfl).listEmpty_iff.trans reqNodes_eq_nil_iff
  · have hat := hinv.atPc
    simp only [DedupeRun.AtPc, hpc] at hat
    rw [hat.1]
    exact cursorAt_first (hh.ring .queued _ rfl)
  · have hat := hinv.atPc
    simp only [DedupeRun.AtPc, hpc] at hat
    rw [hat.1]
    exact cursorAt_first (hh.ring .inProgress _ rfl)

-- ---------------------------------------------------------------------------
-- Building a context
-- ---------------------------------------------------------------------------

theorem newDedupeCtxt_inMemory (h : ListMem CtxtNode) (maxExtents loff elen : Nat) (file : FileId) :
    ∃ h', h.runOps poison newCtxtOps = some h' ∧
      h'.Holds (newDedupeCtxt maxExtents loff elen file).lists := by
  have hallowed : ListMem.AllAllowed (fun _ => none) newCtxtOps := by
    refine ⟨⟨rfl, fun a => List.not_mem_nil⟩, ⟨rfl, fun a => ?_⟩, ⟨rfl, fun a => ?_⟩, trivial⟩
    · cases a <;> exact List.not_mem_nil
    · cases a <;> exact List.not_mem_nil
  obtain ⟨h', hrun, hh⟩ := (ListMem.Holds.of_none h).run poison hallowed
  have hlists : ListMem.listsAfter (fun _ => none) newCtxtOps =
      (newDedupeCtxt maxExtents loff elen file).lists := by
    funext a
    cases a <;> rfl
  exact ⟨h', hrun, hlists ▸ hh⟩

/-- The addresses of the requests are those of requests made so far. -/
def DedupeCtxt.Made (ctxt : DedupeCtxt) : Prop :=
  ∀ r ∈ ctxt.requests, r.id < ctxt.requests.length

/-- A request that is not made yet is a node of no list. -/
theorem DedupeCtxt.Made.free (hmade : ctxt.Made) :
    ListMem.Free ctxt.lists (.req ctxt.requests.length) := by
  have hout : ∀ reqs : List DedupeReq, reqs ⊆ ctxt.requests →
      CtxtNode.req ctxt.requests.length ∉ reqNodes reqs := fun reqs hsub hin => by
    obtain ⟨r, hr, hid⟩ := List.mem_map.1 hin
    exact absurd (hmade r (hsub hr)) (by rw [CtxtNode.req.inj hid]; exact lt_irrefl _)
  refine ⟨rfl, fun a => ?_⟩
  cases a with
  | queued => exact hout _ fun r hr => List.mem_append_left _ (List.mem_append_left _ hr)
  | inProgress => exact hout _ fun r hr => List.mem_append_left _ (List.mem_append_right _ hr)
  | completed => exact hout _ fun r hr => List.mem_append_right _ hr
  | req id => exact List.not_mem_nil

theorem addExtentToDedupe_inMemory (hh : h.Holds ctxt.lists) (hmade : ctxt.Made) {loff room : Nat}
    {file : FileId} {ctxt' : DedupeCtxt}
    (hadd : addExtentToDedupe ctxt loff file = some (room, ctxt')) :
    ∃ h', h.runOps poison (addExtentOps ctxt.requests.length) = some h' ∧
      h'.Holds ctxt'.lists ∧ ctxt'.Made ∧ ctxt'.requests.length = ctxt.requests.length + 1 := by
  unfold addExtentToDedupe at hadd
  split at hadd
  case isTrue => cases hadd
  case isFalse =>
    obtain ⟨-, rfl⟩ := Prod.mk.inj (Option.some.inj hadd)
    have hinit := hh.init hmade.free
    have hfree : ListMem.Free (update ctxt.lists (.req ctxt.requests.length) (some []))
        (.req ctxt.requests.length) := by
      refine ⟨by rw [Function.update_self]; rfl, fun a => ?_⟩
      by_cases ha : a = .req ctxt.requests.length
      · rw [ha, Function.update_self]
        exact List.not_mem_nil
      · rw [Function.update_of_ne ha]
        exact hmade.free.entry a
    have hqueued : update ctxt.lists (.req ctxt.requests.length) (some []) .queued =
        some (reqNodes ctxt.queued) := rfl
    obtain ⟨h', hrun, hh'⟩ := hinit.listAddTail hqueued hfree (by simp)
    refine ⟨h', ?_, ?_, ?_, ?_⟩
    · simp only [ListMem.runOps, addExtentOps, List.foldlM_cons, ListOp.run, Option.bind_eq_bind,
        Option.bind_some, hrun, List.foldlM_nil, Option.pure_def]
    · have hnodes : reqNodes ctxt.queued ++ [.req ctxt.requests.length] =
          reqNodes (ctxt.queued ++ [newDedupeReq ctxt.requests.length file loff]) := by
        rw [reqNodes_append]
        rfl
      rwa [Function.update_idem, DedupeCtxt.lists, requestLists_req, hnodes, requestLists_queued]
        at hh'
    · intro r hr
      simp only [DedupeCtxt.requests, List.mem_append, List.mem_singleton, List.length_append,
        List.length_singleton] at hr ⊢
      have hold : r ∈ ctxt.requests → r.id < ctxt.requests.length := hmade r
      simp only [DedupeCtxt.requests, List.mem_append, List.length_append] at hold
      rcases hr with ((hr | rfl) | hr) | hr
      · exact (hold (.inl (.inl hr))).trans (by omega)
      · simp only [newDedupeReq]
        omega
      · exact (hold (.inl (.inr hr))).trans (by omega)
      · exact (hold (.inr hr)).trans (by omega)
    · simp only [DedupeCtxt.requests, List.length_append, List.length_singleton]
      omega

/-- The calls for `n` requests, of which the first one is made at the address `id`. -/
def addExtentsOps (id n : Nat) : List (ListOp CtxtNode) := (List.range' id n).flatMap addExtentOps

theorem addExtentsToDedupe_inMemory {extents : List Extent} {ctxt' : DedupeCtxt}
    (hh : h.Holds ctxt.lists) (hmade : ctxt.Made)
    (hadd : addExtentsToDedupe ctxt extents = some ctxt') :
    ∃ h', h.runOps poison (addExtentsOps ctxt.requests.length extents.length) = some h' ∧
      h'.Holds ctxt'.lists := by
  induction extents generalizing h ctxt with
  | nil =>
    obtain rfl : ctxt = ctxt' := Option.some.inj hadd
    exact ⟨h, rfl, hh⟩
  | cons e extents ih =>
    rw [addExtentsToDedupe, List.foldlM_cons] at hadd
    obtain ⟨ctxt₁, hone, hrest⟩ := Option.bind_eq_some_iff.1 hadd
    obtain ⟨⟨room, ctxt₁⟩, hroom, rfl⟩ := Option.map_eq_some_iff.1 hone
    obtain ⟨h₁, hrun, hh₁, hmade₁, hlength⟩ := addExtentToDedupe_inMemory poison hh hmade hroom
    obtain ⟨h', hrun', hh'⟩ := ih hh₁ hmade₁ hrest
    refine ⟨h', ?_, hh'⟩
    rw [addExtentsOps, List.length_cons, List.range'_succ, List.flatMap_cons,
      ListMem.runOps_append poison hrun, ← hlength]
    exact hrun'

-- ---------------------------------------------------------------------------
-- `dedupe_extents`
-- ---------------------------------------------------------------------------

section Step

variable {s : DedupeRun} {added : List (Nat × FileId)}

theorem reqNodes_snoc (reqs : List DedupeReq) {req req' : DedupeReq} (hid : req'.id = req.id) :
    reqNodes reqs ++ [.req req.id] = reqNodes (reqs ++ [req']) := by
  rw [reqNodes_append, ← hid]
  rfl

/-- The first request in a list is moved behind those of another one. -/
theorem moveTail_first {queued inProgress completed rest reqs : List DedupeReq}
    {req : DedupeReq} (head target : CtxtNode) (req' : DedupeReq)
    (hh : h.Holds (requestLists queued inProgress completed))
    (hhead : requestLists queued inProgress completed head = some (reqNodes (req :: rest)))
    (htarget : requestLists queued inProgress completed target = some (reqNodes reqs))
    (hne : target ≠ head) (hid : req'.id = req.id) :
    ∃ h', h.runOps poison [.moveTail (.req req.id) target] = some h' ∧
      h'.Holds (update (update (requestLists queued inProgress completed) head
        (some (reqNodes rest))) target (some (reqNodes (reqs ++ [req'])))) := by
  have hplace : requestLists queued inProgress completed head =
      some ([] ++ .req req.id :: reqNodes rest) := hhead
  obtain ⟨h', hrun, hh'⟩ := hh.listMoveTail hplace
    (by rw [Function.update_of_ne hne]; exact htarget)
  rw [reqNodes_snoc reqs hid, List.nil_append] at hh'
  exact ⟨h', ListMem.runOps_one poison (.moveTail (.req req.id) target) hrun, hh'⟩

theorem stepPopulating_inMemory (hinv : s.Inv added) (hh : h.Holds s.ctxt.lists)
    {cursor : SafeList.Cursor Nat} (hpc : s.pc = .populating cursor) :
    ∃ h', h.runOps poison s.listOps = some h' ∧
      h'.Holds (s.stepPopulating cursor).ctxt.lists := by
  have hat := hinv.atPc
  simp only [DedupeRun.AtPc, hpc] at hat
  obtain ⟨rfl, -⟩ := hat
  cases hq : s.ctxt.queued with
  | nil =>
    refine ⟨h, ?_, ?_⟩
    · simp [DedupeRun.listOps, hpc, hq, ListMem.runOps]
    · simpa [DedupeRun.stepPopulating, hq] using hh
  | cons req rest =>
    cases hadd : addDedupeRequest s.ctxt s.ctxt.same req with
    | none =>
      refine ⟨h, ?_, ?_⟩
      · simp [DedupeRun.listOps, hpc, hq, hadd, ListMem.runOps]
      · simpa [DedupeRun.stepPopulating, hq, populateOne, hadd] using hh
    | some out =>
      obtain ⟨same, req'⟩ := out
      have hid : req'.id = req.id := by
        unfold addDedupeRequest at hadd
        split at hadd
        case isTrue => cases hadd
        case isFalse =>
          obtain ⟨-, rfl⟩ := Prod.mk.inj (Option.some.inj hadd)
          rfl
      rw [DedupeCtxt.lists, hq] at hh
      obtain ⟨h', hrun, hh'⟩ := moveTail_first poison .queued .inProgress req' hh rfl rfl
        (by decide) hid
      refine ⟨h', ?_, ?_⟩
      · simpa [DedupeRun.listOps, hpc, hq, hadd] using hrun
      · simpa [DedupeRun.stepPopulating, hq, populateOne, hadd, DedupeCtxt.lists] using hh'

theorem stepProcessing_inMemory (hinv : s.Inv added) (hh : h.Holds s.ctxt.lists)
    {cursor : SafeList.Cursor Nat} {maxDeduped : Nat} (hpc : s.pc = .processing cursor maxDeduped) :
    ∃ h', h.runOps poison s.listOps = some h' ∧
      h'.Holds (s.stepProcessing cursor maxDeduped).ctxt.lists := by
  have hat := hinv.atPc
  simp only [DedupeRun.AtPc, hpc] at hat
  obtain ⟨rfl, -⟩ := hat
  cases hp : s.ctxt.inProgress with
  | nil =>
    -- The end of `process_dedupes`.
    by_cases hsmall : s.fsBlocksize ≠ 0 ∧ Word.sub 64 s.ctxt.len maxDeduped < s.fsBlocksize
    · have hqueued : s.ctxt.lists .queued = some (reqNodes s.ctxt.queued) := rfl
      have hcompleted : s.ctxt.lists .completed = some (reqNodes s.ctxt.completed) := rfl
      obtain ⟨h', hrun, hh'⟩ := hh.listSpliceInit hqueued hcompleted (by decide)
      have hnil : ([] : List CtxtNode) = reqNodes [] := rfl
      rw [← reqNodes_append, hnil, DedupeCtxt.lists, requestLists_completed, requestLists_queued,
        hp] at hh'
      refine ⟨h', ?_, ?_⟩
      · simpa [DedupeRun.listOps, hpc, hp, hsmall] using
          ListMem.runOps_one poison (.spliceInit .queued .completed) hrun
      · simpa [DedupeRun.stepProcessing, hp, processEnd, hsmall, DedupeCtxt.lists] using hh'
    · refine ⟨h, ?_, ?_⟩
      · simp only [DedupeRun.listOps, hpc, hp, SafeList.first_cur, List.head?_nil, Option.map_none,
          Option.bind_none, if_neg hsmall, ListMem.runOps, List.foldlM_nil, Option.pure_def]
      · simpa only [DedupeRun.stepProcessing, hp, SafeList.first_cur, List.head?_nil,
          Option.map_none, Option.bind_none, processEnd, if_neg hsmall, DedupeCtxt.lists] using hh
  | cons req rest =>
    rw [DedupeCtxt.lists, hp] at hh
    by_cases hdone : (s.ctxt.same.infoAt req.reqIdx).status ≠ 0 ∨
        (req.advance (s.ctxt.same.infoAt req.reqIdx).bytesDeduped).reqTotal ≥ s.ctxt.origLen
    · obtain ⟨h', hrun, hh'⟩ := moveTail_first poison .inProgress .completed
        { req.advance (s.ctxt.same.infoAt req.reqIdx).bytesDeduped with
          reqStatus := (s.ctxt.same.infoAt req.reqIdx).status } hh rfl rfl (by decide) rfl
      refine ⟨h', ?_, ?_⟩
      · simpa [DedupeRun.listOps, hpc, hp, hdone] using hrun
      · simpa [DedupeRun.stepProcessing, hp, processOne, hdone, DedupeCtxt.lists] using hh'
    · obtain ⟨h', hrun, hh'⟩ := moveTail_first poison .inProgress .queued
        (req.advance (s.ctxt.same.infoAt req.reqIdx).bytesDeduped) hh rfl rfl (by decide) rfl
      refine ⟨h', ?_, ?_⟩
      · simpa [DedupeRun.listOps, hpc, hp, hdone] using hrun
      · simpa [DedupeRun.stepProcessing, hp, processOne, hdone, DedupeCtxt.lists] using hh'

/-- The calls of a transition follow no null pointer, and the memory holds the lists of the next
    state behind them. -/
theorem step_inMemory (kernel : Nat → KernelAnswer) (hinv : s.Inv added)
    (hh : h.Holds s.ctxt.lists) :
    ∃ h', h.runOps poison s.listOps = some h' ∧ h'.Holds (s.step kernel).ctxt.lists := by
  cases hpc : s.pc with
  | loopHead =>
    refine ⟨h, ?_, ?_⟩
    · simp [DedupeRun.listOps, hpc, ListMem.runOps]
    · simp only [DedupeRun.step, hpc, DedupeRun.stepLoopHead]
      split <;> exact hh
  | populating cursor =>
    simp only [DedupeRun.step, hpc]
    exact stepPopulating_inMemory poison hinv hh hpc
  | ioctl =>
    refine ⟨h, ?_, ?_⟩
    · simp [DedupeRun.listOps, hpc, ListMem.runOps]
    · simp only [DedupeRun.step, hpc, DedupeRun.stepIoctl]
      split
      · exact hh
      · split <;> exact hh
  | processing cursor maxDeduped =>
    simp only [DedupeRun.step, hpc]
    exact stepProcessing_inMemory poison hinv hh hpc
  | returned ret =>
    refine ⟨h, ?_, ?_⟩
    · simp [DedupeRun.listOps, hpc, ListMem.runOps]
    · simpa only [DedupeRun.step, hpc] using hh
  | aborted => exact absurd hpc hinv.not_aborted

theorem run_inMemory (kernel : Nat → KernelAnswer) (hinv : s.Inv added) (hh : h.Holds s.ctxt.lists)
    (n : Nat) :
    ∃ h', h.runOps poison (s.runListOps kernel n) = some h' ∧
      h'.Holds ((DedupeRun.step kernel)^[n] s).ctxt.lists := by
  induction n with
  | zero => exact ⟨h, rfl, hh⟩
  | succ n ih =>
    obtain ⟨h₁, hrun, hh₁⟩ := ih
    have hinv₁ : ((DedupeRun.step kernel)^[n] s).Inv added := reaches_inv hinv ⟨n, rfl⟩
    obtain ⟨h', hlast, hh'⟩ := step_inMemory poison kernel hinv₁ hh₁
    refine ⟨h', ?_, ?_⟩
    · rw [DedupeRun.runListOps, ListMem.runOps_append poison hrun, hlast]
    · rw [Function.iterate_succ_apply']
      exact hh'

end Step

-- ---------------------------------------------------------------------------
-- The results
-- ---------------------------------------------------------------------------

theorem popOneNode_eq (hh : h.Holds ctxt.lists) {req : DedupeReq} {rest : List DedupeReq}
    (hc : ctxt.completed = req :: rest) :
    ∃ h', popOneNode h = some (.req req.id, rest.isEmpty, h') ∧
      h'.Holds { ctxt with completed := rest }.lists := by
  have hcompleted : ctxt.lists .completed = some ([] ++ .req req.id :: reqNodes rest) := by
    rw [DedupeCtxt.lists, hc]
    rfl
  have hring := hh.ring .completed _ hcompleted
  have hfull : h.listEmpty .completed = false :=
    Bool.eq_false_iff.2 fun hempty => List.cons_ne_nil _ _ (hring.listEmpty_iff.1 hempty)
  obtain ⟨v, l₂, hv, hnext⟩ := hring.behind
  obtain ⟨rfl, -⟩ := List.cons.inj hv
  obtain ⟨h', hrun, hh'⟩ := hh.listDelInit hcompleted
  -- The request is freed, so its node is not looked at any more.
  have hkept := hh'.forget (.req req.id)
  rw [Function.update_idem, List.nil_append, DedupeCtxt.lists, requestLists_completed,
    requestLists_req] at hkept
  have hlast : h'.listEmpty .completed = rest.isEmpty := by
    rw [Bool.eq_iff_iff, List.isEmpty_iff]
    exact (hkept.ring .completed _ rfl).listEmpty_iff.trans reqNodes_eq_nil_iff
  refine ⟨h', ?_, hkept⟩
  simp only [popOneNode, hfull, Bool.false_eq_true, if_false, hnext, hrun, hlast,
    Option.bind_eq_bind, Option.bind_some, Option.pure_def]

/-- The memory aborts where the model does, and else pops the same request. -/
theorem popOneDedupeResult_inMemory (hh : h.Holds ctxt.lists) :
    (popOneDedupeResult ctxt = none ∧ popOneNode h = none) ∨
      ∃ result last ctxt' h', popOneDedupeResult ctxt = some (result, last, ctxt') ∧
        popOneNode h = some (.req result.req, last, h') ∧ h'.Holds ctxt'.lists := by
  cases hc : ctxt.completed with
  | nil =>
    have hempty : h.listEmpty .completed = true :=
      (hh.ring .completed _ rfl).listEmpty_iff.2 (reqNodes_eq_nil_iff.2 hc)
    exact .inl ⟨by rw [popOneDedupeResult, hc], by rw [popOneNode, if_pos hempty]⟩
  | cons req rest =>
    obtain ⟨h', hpop, hh'⟩ := popOneNode_eq hh hc
    exact .inr ⟨_, _, _, h', by rw [popOneDedupeResult, hc], hpop, hh'⟩

/-- The results are popped in the order of the list, up to the last one. -/
theorem popNodes_eq (hh : h.Holds ctxt.lists) {req : DedupeReq} {rest : List DedupeReq}
    (hc : ctxt.completed = req :: rest) :
    ∃ h', popNodes (req :: rest).length h = some (reqNodes (req :: rest), h') ∧
      h'.Holds { ctxt with completed := [] }.lists := by
  induction rest generalizing h ctxt req with
  | nil =>
    obtain ⟨h', hpop, hh'⟩ := popOneNode_eq hh hc
    refine ⟨h', ?_, hh'⟩
    simp only [List.length_singleton, popNodes, hpop, List.isEmpty_nil, if_true,
      Option.bind_eq_bind, Option.bind_some, Option.pure_def]
    rfl
  | cons req' rest ih =>
    obtain ⟨h₁, hpop, hh₁⟩ := popOneNode_eq hh hc
    obtain ⟨h', hrest, hh'⟩ := ih hh₁ rfl
    refine ⟨h', ?_, hh'⟩
    rw [List.length_cons, popNodes, hpop]
    simp only [List.isEmpty_cons, Bool.false_eq_true, if_false, Option.bind_eq_bind,
      Option.bind_some, hrest, Option.pure_def]
    rfl

theorem newDedupeCtxt_made (maxExtents loff elen : Nat) (file : FileId) :
    (newDedupeCtxt maxExtents loff elen file).Made := fun _ hr => by cases hr

/-- The lists of a dedupe context in memory, over the whole life of the context. Whatever the
    memory holds before and the kernel answers, the calls of `list.h` that build the context and
    that `dedupe_extents` makes up to any transition follow no null pointer, and the memory holds
    the lists of the state then. What the program reads from the memory to go on is what the state
    has. When `dedupe_extents` returns 0, the results are popped from the memory up to an empty
    list. -/
theorem dedupeExtents_inMemory {maxExtents loff elen : Nat} {file : FileId} {extents : List Extent}
    (hmax : 0 < maxExtents) (hne : extents ≠ [])
    (hroom : extents.length ≤ (newDedupeCtxt maxExtents loff elen file).maxQueable) :
    ∃ ctxt, addExtentsToDedupe (newDedupeCtxt maxExtents loff elen file) extents = some ctxt ∧
      ∀ (poison : CtxtNode × CtxtNode) (h : ListMem CtxtNode) (kernel : Nat → KernelAnswer)
        (fsBlocksize ioctls n : Nat), ∃ (s : DedupeRun) (h' : ListMem CtxtNode),
        (DedupeRun.step kernel)^[n] (.start ctxt fsBlocksize ioctls) = s ∧
        h.runOps poison (newCtxtOps ++ (addExtentsOps 0 extents.length ++
          DedupeRun.runListOps kernel (.start ctxt fsBlocksize ioctls) n)) = some h' ∧
        h'.Holds s.ctxt.lists ∧ s.ReadsMemory h' ∧
        (s.pc = .returned 0 → ∀ kernBytes, ∃ w h'',
          processDedupeResults s.ctxt kernBytes = some (some w) ∧
          popNodes w.popped.length h' = some (w.popped.map fun r => .req r.req, h'') ∧
          h''.Holds (requestLists [] [] [])) := by
  have hroom' := hroom
  rw [newDedupeCtxt_eq_filled, filledCtxt_maxQueable hmax] at hroom'
  have hfilled := @addExtentsToDedupe_filled maxExtents loff elen file hmax [] extents hroom'
  refine ⟨_, hfilled, fun poison h kernel fsBlocksize ioctls n => ?_⟩
  obtain ⟨h₁, hrun₁, hh₁⟩ := newDedupeCtxt_inMemory poison h maxExtents loff elen file
  obtain ⟨h₂, hrun₂, hh₂⟩ := addExtentsToDedupe_inMemory poison hh₁
    (newDedupeCtxt_made maxExtents loff elen file) hfilled
  have hinv := @start_inv maxExtents loff elen file extents hmax hroom' fsBlocksize ioctls
  obtain ⟨h', hrun, hh'⟩ := run_inMemory poison kernel hinv hh₂ n
  have hinv' : ((DedupeRun.step kernel)^[n] (.start (filledCtxt maxExtents loff elen file extents)
      fsBlocksize ioctls)).Inv (addedIdents extents) := reaches_inv hinv ⟨n, rfl⟩
  refine ⟨_, h', rfl, ?_, hh', readsMemory hinv' hh', fun hret kernBytes => ?_⟩
  · rw [ListMem.runOps_append poison hrun₁]
    exact (ListMem.runOps_append poison hrun₂).trans hrun
  · obtain ⟨hqueued, hprogress, hheld⟩ := hinv'.done hret
    obtain ⟨w, hw, hpopped, -⟩ := processDedupeResults_eq (completed_ne_nil hne hheld) kernBytes
    obtain ⟨req, rest, hc⟩ := List.exists_cons_of_ne_nil (completed_ne_nil hne hheld)
    obtain ⟨h'', hpop, hh''⟩ := popNodes_eq hh' hc
    refine ⟨w, h'', hw, ?_, ?_⟩
    · rw [hpopped, List.length_map, hc, hpop, List.map_map]
      rfl
    · rwa [DedupeCtxt.lists, hqueued, hprogress] at hh''

/-- Two destinations of a page each, which the kernel dedupes at once: the memory pops the first
    request and then the second one. -/
theorem dedupeExtents_inMemory_pages : ∃ h' h'' : ListMem CtxtNode,
    (⟨fun _ => ⟨none, none⟩⟩ : ListMem CtxtNode).runOps (.queued, .queued)
      (newCtxtOps ++ (addExtentsOps 0 2 ++
        DedupeRun.runListOps pageKernel (.start pageCtxt 0 0) 9)) = some h' ∧
    popNodes 2 h' = some ([.req 0, .req 1], h'') := by
  obtain ⟨ctxt, hfill, hruns⟩ := @dedupeExtents_inMemory 3 0 4096 1 [⟨2, 0⟩, ⟨3, 8192⟩]
    (by decide) (by decide) (by decide)
  have hpage : addExtentsToDedupe (newDedupeCtxt 3 0 4096 1) [⟨2, 0⟩, ⟨3, 8192⟩] =
      some pageCtxt := by decide
  obtain rfl : ctxt = pageCtxt := Option.some.inj (hfill.symm.trans hpage)
  obtain ⟨s, h', rfl, hrun, -, -, hpops⟩ := hruns (.queued, .queued) ⟨fun _ => ⟨none, none⟩⟩
    pageKernel 0 0 9
  obtain ⟨w, h'', hw, hpop, -⟩ := hpops (by decide) 0
  have hpopped : (processDedupeResults ((DedupeRun.step pageKernel)^[9] (.start pageCtxt 0 0)).ctxt
      0).map (fun w => w.map fun w => w.popped.map DedupeResult.req) = some (some [0, 1]) := by
    decide
  rw [hw] at hpopped
  have hreqs : w.popped.map DedupeResult.req = [0, 1] :=
    Option.some.inj (Option.some.inj hpopped)
  have hlength : w.popped.length = 2 := by
    rw [← List.length_map DedupeResult.req, hreqs]
    rfl
  have hnodes : (w.popped.map fun r => CtxtNode.req r.req) = [.req 0, .req 1] := by
    have hmap := congrArg (List.map CtxtNode.req) hreqs
    rwa [List.map_map] at hmap
  rw [hlength, hnodes] at hpop
  exact ⟨h', h'', hrun, hpop⟩

end Memory

end Duperemove
