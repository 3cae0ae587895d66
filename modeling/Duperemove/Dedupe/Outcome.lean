-- SUMMARY: What a pass did: which destination each finished request served, and the contexts that came back to the driver.
import Duperemove.Dedupe.Coverage

/-!
# The outcome of a pass

A request moves its offset along while it is served, so its destination is the
offset minus the bytes so far, as `pop_one_dedupe_result` computes it. This
destination, the file and the source of a context do not change while
`dedupe_extents` runs. So a finished context says what the kernel did to each
destination of the context that was submitted.
-/

namespace Duperemove

/-! ## Requests along a run -/

/-- The destination of a request, at the offset it started from. -/
def DedupeReq.dest (r : DedupeReq) : Extent := ⟨r.reqFile, Word.sub 64 r.reqLoff r.reqTotal⟩

/-- The source of a context. -/
def DedupeCtxt.source (ctxt : DedupeCtxt) : Extent := ⟨ctxt.ioctlFile, ctxt.origFileOff⟩

/-- A property of requests that survives the changes `dedupe_extents` makes to
    one. -/
structure DedupeReq.Stable (P : DedupeReq → Prop) : Prop where
  index : ∀ r i, P r → P { r with reqIdx := i }
  advance : ∀ r bytes, P r → P (r.advance bytes)
  status : ∀ r status, P r → P { r with reqStatus := status }

section Step

variable {P : DedupeReq → Prop} {s : DedupeRun}

theorem forall_requests {ctxt : DedupeCtxt} :
    (∀ r ∈ ctxt.requests, P r) ↔
      (∀ r ∈ ctxt.queued, P r) ∧ (∀ r ∈ ctxt.inProgress, P r) ∧ ∀ r ∈ ctxt.completed, P r := by
  simp only [DedupeCtxt.requests, List.forall_mem_append, and_assoc]

theorem forall_unlink {l : List DedupeReq} (h : ∀ r ∈ l, P r) (id : Nat) :
    ∀ r ∈ SafeList.unlink DedupeReq.id l id, P r := fun r hr => h r (List.mem_of_mem_eraseP hr)

theorem of_cursor {l : List DedupeReq} {cursor : SafeList.Cursor Nat} {req : DedupeReq}
    (h : ∀ r ∈ l, P r) (hreq : cursor.cur.bind (SafeList.at? DedupeReq.id l) = some req) :
    P req := by
  obtain ⟨id, -, hfind⟩ := Option.bind_eq_some_iff.1 hreq
  exact h req (List.mem_of_find?_eq_some hfind)

theorem stepPopulating_forall (hindex : ∀ r i, P r → P { r with reqIdx := i })
    (h : ∀ r ∈ s.ctxt.requests, P r)
    (cursor : SafeList.Cursor Nat) : ∀ r ∈ (s.stepPopulating cursor).ctxt.requests, P r := by
  obtain ⟨hqueued, hprogress, hcompleted⟩ := forall_requests.1 h
  unfold DedupeRun.stepPopulating
  split
  · exact h
  · rename_i req hreq
    have hPreq := of_cursor hqueued hreq
    split
    · exact h
    · rename_i ctxt hone
      simp only [populateOne, addDedupeRequest] at hone
      split at hone
      · cases hone
      · rename_i same req' hadd
        split at hadd
        · cases hadd
        · cases hadd
          cases hone
          refine forall_requests.2 ⟨forall_unlink hqueued _, ?_, hcompleted⟩
          refine List.forall_mem_append.2 ⟨hprogress, ?_⟩
          exact List.forall_mem_singleton.2 (hindex _ _ hPreq)

theorem stepIoctl_forall (kernel : Nat → KernelAnswer) (h : ∀ r ∈ s.ctxt.requests, P r) :
    ∀ r ∈ (s.stepIoctl kernel).ctxt.requests, P r := by
  unfold DedupeRun.stepIoctl
  simp only
  split
  · exact h
  · split <;> exact h

theorem stepProcessing_forall (hP : DedupeReq.Stable P) (h : ∀ r ∈ s.ctxt.requests, P r)
    (cursor : SafeList.Cursor Nat) (maxDeduped : Nat) :
    ∀ r ∈ (s.stepProcessing cursor maxDeduped).ctxt.requests, P r := by
  obtain ⟨hqueued, hprogress, hcompleted⟩ := forall_requests.1 h
  unfold DedupeRun.stepProcessing
  split
  · obtain ⟨hprog, -, -, hlists⟩ := processEnd_lists s.fsBlocksize s.ctxt maxDeduped
    have hboth := List.forall_mem_append.2 ⟨hqueued, hcompleted⟩
    rw [← hlists] at hboth
    rw [forall_requests, hprog]
    exact ⟨(List.forall_mem_append.1 hboth).1, hprogress, (List.forall_mem_append.1 hboth).2⟩
  · rename_i req hreq
    have hPreq := of_cursor hprogress hreq
    have hmoved := hP.advance req (s.ctxt.same.infoAt req.reqIdx).bytesDeduped hPreq
    simp only [processOne]
    split
    · refine forall_requests.2 ⟨hqueued, forall_unlink hprogress _, ?_⟩
      refine List.forall_mem_append.2 ⟨hcompleted, ?_⟩
      exact List.forall_mem_singleton.2 (hP.status _ _ hmoved)
    · refine forall_requests.2 ⟨?_, forall_unlink hprogress _, hcompleted⟩
      exact List.forall_mem_append.2 ⟨hqueued, List.forall_mem_singleton.2 hmoved⟩

/-- A transition keeps what holds of every request. -/
theorem step_forall (kernel : Nat → KernelAnswer) (hP : DedupeReq.Stable P)
    (h : ∀ r ∈ s.ctxt.requests, P r) : ∀ r ∈ (DedupeRun.step kernel s).ctxt.requests, P r := by
  unfold DedupeRun.step
  split
  · unfold DedupeRun.stepLoopHead
    split <;> exact h
  · exact stepPopulating_forall hP.index h _
  · exact stepIoctl_forall kernel h
  · exact stepProcessing_forall hP h _ _
  · exact h
  · exact h

/-- A transition keeps the source and the length of the context. -/
theorem step_source (kernel : Nat → KernelAnswer) (s : DedupeRun) :
    (DedupeRun.step kernel s).ctxt.source = s.ctxt.source ∧
      (DedupeRun.step kernel s).ctxt.origLen = s.ctxt.origLen := by
  unfold DedupeRun.step
  split
  · unfold DedupeRun.stepLoopHead
    split <;> exact ⟨rfl, rfl⟩
  · unfold DedupeRun.stepPopulating
    split
    · exact ⟨rfl, rfl⟩
    · split
      · exact ⟨rfl, rfl⟩
      · rename_i ctxt hone
        simp only [populateOne] at hone
        split at hone
        · cases hone
        · cases hone
          exact ⟨rfl, rfl⟩
  · unfold DedupeRun.stepIoctl
    simp only
    split
    · exact ⟨rfl, rfl⟩
    · split <;> exact ⟨rfl, rfl⟩
  · unfold DedupeRun.stepProcessing
    split
    · simp only [processEnd]
      split <;> exact ⟨rfl, rfl⟩
    · simp only [processOne]
      split <;> exact ⟨rfl, rfl⟩
  · exact ⟨rfl, rfl⟩
  · exact ⟨rfl, rfl⟩

end Step

/-! ## One call of `dedupe_extents` -/

/-- A request is the one at its address, and serves that destination. -/
structure DedupeReq.Serves (ds : List Extent) (r : DedupeReq) : Prop where
  added : ds[r.id]? = some r.dest
  loff_lt : r.reqLoff < 2 ^ 64
  total_lt : r.reqTotal < 2 ^ 64

theorem DedupeReq.dest_advance {r : DedupeReq} (hloff : r.reqLoff < 2 ^ 64)
    (htotal : r.reqTotal < 2 ^ 64) (bytes : Nat) : (r.advance bytes).dest = r.dest := by
  simp only [dest, advance, Word.sub_wrap_add hloff htotal]

theorem DedupeReq.serves_stable (ds : List Extent) : Stable (Serves ds) where
  index _ _ h := ⟨h.added, h.loff_lt, h.total_lt⟩
  status _ _ h := ⟨h.added, h.loff_lt, h.total_lt⟩
  advance r bytes h := by
    refine ⟨?_, Word.wrap_lt _ _, Word.wrap_lt _ _⟩
    rw [dest_advance h.loff_lt h.total_lt]
    exact h.added

section Call

variable {n loff len : Nat} {file : FileId} {ds : List Extent} {kernel : Nat → KernelAnswer}
variable {fuel fsBlocksize ioctls : Nat} {s : DedupeRun}

/-- The requests of a filled context serve its destinations. -/
theorem filledCtxt_serves (hoff : ∀ e ∈ ds, e.eLoff < 2 ^ 64) :
    ∀ r ∈ (filledCtxt n loff len file ds).requests, r.Serves ds := by
  intro r hr
  have hqueued : r ∈ ds.mapIdx fun i e => newDedupeReq i e.eFile e.eLoff := by
    simpa [filledCtxt, newDedupeCtxt, DedupeCtxt.requests] using hr
  obtain ⟨i, hi, rfl⟩ := List.mem_mapIdx.1 hqueued
  have hget : ds[i]? = some ds[i] := List.getElem?_eq_getElem hi
  exact ⟨hget, hoff _ (List.getElem_mem hi), Nat.two_pow_pos 64⟩

/-- A finished context has the source and the length of the one submitted, and its
    requests serve the same destinations. -/
theorem dedupeExtents_outcome (hn : 0 < n) (hroom : ds.length ≤ destsFor n)
    (hoff : ∀ e ∈ ds, e.eLoff < 2 ^ 64)
    (hrun : dedupeExtents kernel fuel (filledCtxt n loff len file ds) fsBlocksize ioctls =
      some s) :
    s.ctxt.source = ⟨file, loff⟩ ∧ s.ctxt.origLen = len ∧
      ∀ e, (∃ r ∈ s.ctxt.requests, r.dest = e) ↔ e ∈ ds := by
  have hinv : s.Inv (addedIdents ds) :=
    dedupeExtents_keeps (DedupeRun.Inv (addedIdents ds)) (fun _ => step_inv kernel)
      (start_inv hn hroom fsBlocksize ioctls) hrun
  have hserves : ∀ r ∈ s.ctxt.requests, r.Serves ds :=
    dedupeExtents_keeps (fun s => ∀ r ∈ s.ctxt.requests, r.Serves ds)
      (fun _ => step_forall kernel (DedupeReq.serves_stable ds)) (filledCtxt_serves hoff) hrun
  have hsource : s.ctxt.source = ⟨file, loff⟩ ∧ s.ctxt.origLen = len := by
    refine dedupeExtents_keeps (fun s => s.ctxt.source = ⟨file, loff⟩ ∧ s.ctxt.origLen = len)
      (fun s hs => ?_) ⟨rfl, rfl⟩ hrun
    obtain ⟨hsrc, hlen⟩ := step_source kernel s
    exact ⟨hsrc.trans hs.1, hlen.trans hs.2⟩
  refine ⟨hsource.1, hsource.2, fun e => ⟨?_, ?_⟩⟩
  · rintro ⟨r, hr, rfl⟩
    exact List.mem_of_getElem? (hserves r hr).added
  · intro he
    obtain ⟨i, hi, rfl⟩ := List.getElem_of_mem he
    have hadded : (i, ds[i].eFile) ∈ addedIdents ds := List.mem_mapIdx.2 ⟨i, hi, rfl⟩
    obtain ⟨r, hr, hident⟩ := List.mem_map.1 (hinv.held.mem_iff.2 hadded)
    have hid : r.id = i := congrArg Prod.fst hident
    have hdest := (hserves r hr).added
    rw [hid, List.getElem?_eq_getElem hi] at hdest
    exact ⟨r, hr, (Option.some.inj hdest).symm⟩

end Call

/-! ## The contexts that came back -/

/-- `fin` is what `dedupe_extents` made of `ctxt`. -/
def CameBack (w : DedupeWorld) (ctxt fin : DedupeCtxt) : Prop :=
  ∃ fsBlocksize ioctls s,
    dedupeExtents w.kernel w.fuel ctxt fsBlocksize ioctls = some s ∧ s.ctxt = fin

/-- A property of the logs of the driver (the contexts it submitted, those that came
    back, and the files it dropped) that holds on when a context comes back and when
    a file turns out to be gone. -/
structure LogRule (w : DedupeWorld)
    (P : List DedupeCtxt → List DedupeCtxt → List FileId → Prop) : Prop where
  flush : ∀ submitted finished removed ctxt fin, P submitted finished removed →
    CameBack w ctxt fin → P (submitted ++ [ctxt]) (finished ++ [fin]) removed
  drop : ∀ submitted finished removed file, P submitted finished removed →
    w.opens file = some enoent → P submitted finished (removed ++ [file])

def Driver.Logs (P : List DedupeCtxt → List DedupeCtxt → List FileId → Prop) (d : Driver) : Prop :=
  P d.submitted d.finished d.removed

/-- The logs after a round, unless it hangs. -/
def DriverRound.Logs (P : List DedupeCtxt → List DedupeCtxt → List FileId → Prop) :
    DriverRound → Prop
  | .next d => d.Logs P
  | .leave d => d.Logs P
  | .stop exit d => exit ≠ .stuck → d.Logs P

section Logs

variable {w : DedupeWorld} {P : List DedupeCtxt → List DedupeCtxt → List FileId → Prop}
variable {d : Driver}

theorem closeFiles_logs (h : d.Logs P) (last : Bool) : (closeFiles w last d).Logs P := by
  unfold closeFiles
  simp only
  split
  · exact h
  · split
    · exact fun _ => h
    · split <;> exact h

theorem runDedupe_logs (hP : LogRule w P) (h : d.Logs P) (last : Bool) (ctxt : DedupeCtxt) :
    (runDedupe w last d ctxt).Logs P := by
  unfold runDedupe
  split
  · exact closeFiles_logs h last
  · simp only
    split
    · exact fun hstuck => absurd rfl hstuck
    · rename_i s hrun
      have hflush := hP.flush _ _ _ ctxt s.ctxt h ⟨_, _, s, hrun, rfl⟩
      split
      · split
        · apply closeFiles_logs
          exact hflush
        · exact fun _ => hflush
      · split
        · exact fun _ => hflush
        · apply closeFiles_logs
          exact hflush

theorem queueExtent_logs (hP : LogRule w P) (h : d.Logs P) (last : Bool) (ctxt : DedupeCtxt)
    (e : Extent) : (queueExtent w last d ctxt e).Logs P := by
  unfold queueExtent
  split
  · exact fun _ => h
  · simp only
    split
    · exact h
    · apply runDedupe_logs hP
      exact h

theorem dedupeRound_logs (hP : LogRule w P) (h : d.Logs P) (n len : Nat) (last : Bool)
    (e : Extent) : (dedupeRound w n len last e d).Logs P := by
  cases hcall : filerecOpenOnce w.opens e.eFile d.openFiles with
  | mk errno files =>
    cases errno with
    | some errno =>
      have herrno : w.opens e.eFile = some errno := by
        unfold filerecOpenOnce at hcall
        split at hcall
        · cases hcall
        · split at hcall
          · rename_i hopens
            cases hcall
            exact hopens
          · cases hcall
      have hskip : (d.unopened errno e).Logs P := by
        unfold Driver.unopened
        split
        · rename_i hgone
          exact hP.drop _ _ _ _ h (hgone ▸ herrno)
        · exact h
      rw [dedupeRound_unopened hcall]
      split
      · split
        · exact runDedupe_logs hP hskip last _
        · exact hskip
      · exact hskip
    | none =>
      simp only [dedupeRound, hcall]
      split
      · apply queueExtent_logs hP
        exact h
      · apply queueExtent_logs hP
        exact h
      · split
        · apply closeFiles_logs
          exact h
        · exact h

/-- A walk over a group that does not hang keeps what holds of the logs. -/
theorem driverLoop_logs (hP : LogRule w P) (n len : Nat) (extents : List Extent) (h : d.Logs P)
    (hends : (driverLoop w n len extents d).1 ≠ .stuck) :
    (driverLoop w n len extents d).2.Logs P := by
  have hend : ∀ d : Driver, (driverEnd d).2 = d := by
    intro d
    unfold driverEnd
    split
    · rfl
    · split <;> rfl
  induction extents generalizing d with
  | nil =>
    rw [driverLoop, hend]
    exact h
  | cons e rest ih =>
    have hround := dedupeRound_logs hP h n len rest.isEmpty e
    simp only [driverLoop] at hends ⊢
    cases hcase : dedupeRound w n len rest.isEmpty e d with
    | next d' =>
      rw [hcase] at hround hends
      exact ih hround hends
    | leave d' =>
      rw [hcase] at hround
      rw [hend]
      exact hround
    | stop exit d' =>
      rw [hcase] at hround hends
      exact hround hends

end Logs

/-- Every context that was submitted came back, and no other one. -/
structure Answered (w : DedupeWorld) (ctxts fins : List DedupeCtxt) : Prop where
  submitted : ∀ fin ∈ fins, ∃ ctxt ∈ ctxts, CameBack w ctxt fin
  finished : ∀ ctxt ∈ ctxts, ∃ fin ∈ fins, CameBack w ctxt fin

theorem answered_rule (w : DedupeWorld) :
    LogRule w fun submitted finished _ => Answered w submitted finished where
  flush submitted finished _ ctxt fin h hcame := by
    constructor
    · refine List.forall_mem_append.2 ⟨fun f hf => ?_, List.forall_mem_singleton.2 ?_⟩
      · obtain ⟨c', hc', hcame'⟩ := h.submitted f hf
        exact ⟨c', List.mem_append_left _ hc', hcame'⟩
      · exact ⟨ctxt, List.mem_append_right _ (List.mem_singleton_self _), hcame⟩
    · refine List.forall_mem_append.2 ⟨fun c' hc' => ?_, List.forall_mem_singleton.2 ?_⟩
      · obtain ⟨f, hf, hcame'⟩ := h.finished c' hc'
        exact ⟨f, List.mem_append_left _ hf, hcame'⟩
      · exact ⟨fin, List.mem_append_right _ (List.mem_singleton_self _), hcame⟩
  drop _ _ _ _ h _ := h

section Outcome

variable {w : DedupeWorld} {d : Driver} {exit : DriverExit}

theorem dedupeExtentList_answered {len : Nat} {extents : List Extent} {fsBlocksize kernBytes : Nat}
    (hrun : dedupeExtentList w len extents fsBlocksize kernBytes = (exit, d))
    (hends : exit ≠ .stuck) : Answered w d.submitted d.finished := by
  have hlogs := @driverLoop_logs w _ (.start fsBlocksize kernBytes) (answered_rule w)
    extents.length len extents ⟨by simp [Driver.start], by simp [Driver.start]⟩
  unfold dedupeExtentList at hrun
  rw [hrun] at hlogs
  exact hlogs hends

/-- Without `ENOENT` no file is dropped from the hashfile. -/
theorem dedupeExtentList_removed {len : Nat} {extents : List Extent} {fsBlocksize kernBytes : Nat}
    (hopens : ∀ f, w.opens f ≠ some enoent)
    (hrun : dedupeExtentList w len extents fsBlocksize kernBytes = (exit, d))
    (hends : exit ≠ .stuck) : d.removed = [] := by
  have hrule : LogRule w fun _ _ removed => removed = [] :=
    ⟨fun _ _ _ _ _ h _ => h, fun _ _ _ file _ hgone => absurd hgone (hopens file)⟩
  have hlogs := @driverLoop_logs w _ (.start fsBlocksize kernBytes) hrule extents.length len
    extents rfl
  unfold dedupeExtentList at hrun
  rw [hrun] at hlogs
  exact hlogs hends

/-- The contexts that came back from a group: their source is the target, and their
    requests serve later extents that open. If the target always opens again, they
    serve all of these. -/
theorem dedupeExtentList_outcome {len : Nat} {extents : List Extent} (hn : 2 ≤ extents.length)
    (hoff : ∀ e ∈ extents, e.eLoff < 2 ^ 64) (fsBlocksize kernBytes : Nat)
    (hrun : dedupeExtentList w len extents fsBlocksize kernBytes = (exit, d))
    (hends : exit ≠ .stuck) :
    (∀ fin ∈ d.finished, (opening w extents).head? = some fin.source ∧ fin.origLen = len ∧
      ∀ r ∈ fin.requests, r.dest ∈ (opening w extents).tail) ∧
    ((∀ tgt k, (opening w extents).head? = some tgt → w.reopens k tgt.eFile = none) →
      ∀ e ∈ (opening w extents).tail, ∃ fin ∈ d.finished, ∃ r ∈ fin.requests, r.dest = e) := by
  obtain ⟨batches, left, hsubmits, -, hpost⟩ := dedupeExtentList_post hn w len fsBlocksize kernBytes
  have hback := dedupeExtentList_answered hrun hends
  rw [hrun] at hsubmits hpost
  cases hopen : opening w extents with
  | nil =>
    have hnone := hsubmits.nothing hopen
    simp only at hnone
    refine ⟨fun fin hfin => ?_, fun _ e he => by cases he⟩
    obtain ⟨ctxt, hctxt, -⟩ := hback.submitted fin hfin
    rw [hnone] at hctxt
    cases hctxt
  | cons tgt rest =>
    have hhead : (opening w extents).head? = some tgt := by rw [hopen]; rfl
    have hsub : d.submitted = batches.map (filledCtxt extents.length tgt.eLoff len tgt.eFile) :=
      hsubmits.submitted tgt hhead
    have hsplit := hsubmits.split
    rw [hopen, List.tail_cons] at hsplit
    have hbatch : ∀ b ∈ batches, ∀ e ∈ b, e ∈ rest := by
      intro b hb e he
      rw [hsplit]
      exact List.mem_append_left _ (List.mem_flatten_of_mem hb he)
    have hbatchOff : ∀ b ∈ batches, ∀ e ∈ b, e.eLoff < 2 ^ 64 := by
      intro b hb e he
      apply hoff
      have hin : e ∈ opening w extents := by
        rw [hopen]
        exact List.mem_cons_of_mem _ (hbatch b hb e he)
      exact (List.mem_filter.1 hin).1
    have hcall : ∀ b ∈ batches, ∀ fin,
        CameBack w (filledCtxt extents.length tgt.eLoff len tgt.eFile b) fin →
        fin.source = tgt ∧ fin.origLen = len ∧ ∀ e, (∃ r ∈ fin.requests, r.dest = e) ↔ e ∈ b := by
      rintro b hb _ ⟨fsb, k, s, hcalled, rfl⟩
      exact dedupeExtents_outcome (by omega) (hsubmits.sizes b hb).2 (hbatchOff b hb) hcalled
    simp only [List.head?_cons, List.tail_cons, Option.some.injEq]
    constructor
    · intro fin hfin
      obtain ⟨ctxt, hctxt, hcame⟩ := hback.submitted fin hfin
      rw [hsub] at hctxt
      obtain ⟨b, hb, rfl⟩ := List.mem_map.1 hctxt
      obtain ⟨hsource, hlen, hserves⟩ := hcall b hb fin hcame
      exact ⟨hsource.symm, hlen, fun r hr => hbatch b hb _ ((hserves _).1 ⟨r, hr, rfl⟩)⟩
    · intro hreopens e he
      have hleft : left = [] := by
        rcases hpost with hstuck | ⟨-, -, hleft | ⟨tgt', k, hhead', hre⟩⟩ | ⟨-, -, hleft⟩
        · exact absurd hstuck hends
        · exact hleft
        · rw [hhead] at hhead'
          cases hhead'
          exact absurd (hreopens tgt k rfl) hre
        · exact hleft
      rw [hsplit, hleft, List.append_nil] at he
      obtain ⟨b, hb, heb⟩ := List.mem_flatten.1 he
      obtain ⟨fin, hfin, hcame⟩ := hback.finished _ (by rw [hsub]; exact List.mem_map_of_mem hb)
      obtain ⟨r, hr, hdest⟩ := ((hcall b hb fin hcame).2.2 e).2 heb
      exact ⟨fin, hfin, r, hr, hdest⟩

end Outcome

end Duperemove
