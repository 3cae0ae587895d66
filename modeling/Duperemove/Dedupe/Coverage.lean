-- SUMMARY: What the batch driver submits, and when its checks behind the loop fail.
import Duperemove.Dedupe.Conservation
import Duperemove.Dedupe.Driver

/-!
# Coverage of the batch driver

The extents whose files open are the target followed by the destinations. The
driver cuts the destinations into batches of the size of a context. `Tracks` says
where it stands after a part of the group, `dedupeRound_tracks` takes it over one
extent, and `driverLoop_post` says how the walk over the whole group ends.
-/

namespace Duperemove

/-- Whether the file of an extent opens. -/
def DedupeWorld.canOpen (w : DedupeWorld) (e : Extent) : Bool := (w.opens e.eFile).isNone

/-- The extents whose files open: the target first, then the destinations. -/
def opening (w : DedupeWorld) (extents : List Extent) : List Extent := extents.filter w.canOpen

theorem opening_concat (w : DedupeWorld) (extents : List Extent) (e : Extent) :
    opening w (extents ++ [e]) = opening w extents ++ if w.canOpen e then [e] else [] := by
  cases hopen : w.canOpen e <;> simp [opening, hopen]

theorem opening_append (w : DedupeWorld) (as bs : List Extent) :
    opening w (as ++ bs) = opening w as ++ opening w bs := List.filter_append ..

-- ---------------------------------------------------------------------------
-- One call of `dedupe_extents`
-- ---------------------------------------------------------------------------

section Flush

variable {w : DedupeWorld} {n loff len : Nat} {file : FileId} {ds : List Extent}

/-- What every transition keeps holds at the end of `dedupe_extents`. -/
theorem dedupeExtents_keeps {kernel : Nat → KernelAnswer} (I : DedupeRun → Prop)
    (hstep : ∀ s, I s → I (DedupeRun.step kernel s)) {ctxt : DedupeCtxt}
    {fuel fsBlocksize ioctls : Nat} {s : DedupeRun} (hstart : I (.start ctxt fsBlocksize ioctls))
    (hrun : dedupeExtents kernel fuel ctxt fsBlocksize ioctls = some s) : I s := by
  refine Loop.run_partial I ?_ ?_ fuel _ hstart hrun
  · intro s s' hs hround
    have hnext : s' = DedupeRun.step kernel s := by
      unfold DedupeRun.round at hround
      split at hround <;> cases hround
      rfl
    rw [hnext]
    exact hstep s hs
  · intro s r hs hround
    have hsame : r = s := by
      unfold DedupeRun.round at hround
      split at hround <;> cases hround <;> rfl
    rw [hsame]
    exact hs

/-- A call of `dedupe_extents` that ends has returned, and with 0 its results can
    be popped. -/
theorem dedupeExtents_returned (hn : 0 < n) (hne : ds ≠ []) (hroom : ds.length ≤ destsFor n)
    {fuel fsBlocksize ioctls : Nat} {kernel : Nat → KernelAnswer} {s : DedupeRun}
    (hrun : dedupeExtents kernel fuel (filledCtxt n loff len file ds) fsBlocksize ioctls =
      some s) :
    s.pc ≠ .aborted ∧
      (s.pc = .returned 0 → ∀ kernBytes, ∃ walk,
        processDedupeResults s.ctxt kernBytes = some (some walk)) := by
  have hinv : s.Inv (addedIdents ds) :=
    dedupeExtents_keeps (DedupeRun.Inv (addedIdents ds)) (fun _ => step_inv kernel)
      (start_inv hn hroom fsBlocksize ioctls) hrun
  refine ⟨hinv.not_aborted, fun hret kernBytes => ?_⟩
  obtain ⟨-, -, hheld⟩ := hinv.done hret
  obtain ⟨walk, hwalk, -⟩ := processDedupeResults_eq (completed_ne_nil hne hheld) kernBytes
  exact ⟨walk, hwalk⟩

/-- The driver after a flush of `ctxts`, in front of `close_files`. -/
structure Flushed (d : Driver) (ctxts : List DedupeCtxt) (d' : Driver) : Prop where
  submitted : d'.submitted = d.submitted ++ ctxts
  tgtExtent : d'.tgtExtent = d.tgtExtent
  flushes : d'.flushes = d.flushes

/-- A flush submits a context with requests and skips an empty one. Then it goes
    on to `close_files`, unless `dedupe_extents` does not end. -/
theorem runDedupe_spec (w : DedupeWorld) (loff len : Nat) (file : FileId) (hn : 0 < n)
    (hroom : ds.length ≤ destsFor n) (last : Bool) (d : Driver) :
    ∃ d', Flushed d (if ds = [] then [] else [filledCtxt n loff len file ds]) d' ∧
      (runDedupe w last d (filledCtxt n loff len file ds) = closeFiles w last d' ∨
        (ds ≠ [] ∧ runDedupe w last d (filledCtxt n loff len file ds) = .stop .stuck d')) := by
  have hnum : (filledCtxt n loff len file ds).numQueued = ds.length := rfl
  unfold runDedupe
  rw [hnum]
  by_cases hne : ds = []
  · refine ⟨d, ⟨by simp [hne], rfl, rfl⟩, .inl ?_⟩
    rw [if_pos (by rw [hne]; rfl)]
  · have hlen : ds.length ≠ 0 := fun h => hne (List.length_eq_zero_iff.1 h)
    rw [if_neg hlen]
    simp only [if_neg hne]
    cases hrun : dedupeExtents w.kernel w.fuel (filledCtxt n loff len file ds) d.fsBlocksize
        d.ioctls with
    | none =>
      refine ⟨_, ?_, .inr ⟨hne, rfl⟩⟩
      exact ⟨rfl, rfl, rfl⟩
    | some s =>
      obtain ⟨habort, hpop⟩ := dedupeExtents_returned hn hne hroom hrun
      simp only
      by_cases hret : s.pc = .returned 0
      · obtain ⟨walk, hwalk⟩ := hpop hret d.kernBytes
        rw [if_pos hret, hwalk]
        refine ⟨_, ?_, .inl rfl⟩
        exact ⟨rfl, rfl, rfl⟩
      · rw [if_neg hret, if_neg habort]
        refine ⟨_, ?_, .inl rfl⟩
        exact ⟨rfl, rfl, rfl⟩

end Flush

-- ---------------------------------------------------------------------------
-- Where the driver stands
-- ---------------------------------------------------------------------------

/-- The driver after the extents `pre` when the target is `tgt`: the destinations
    so far are full batches, which were submitted, and a rest `cur`. -/
structure Targets (w : DedupeWorld) (n len : Nat) (pre : List Extent) (d : Driver) (tgt : Extent)
    (batches : List (List Extent)) (cur : List Extent) : Prop where
  opened : opening w pre = tgt :: (batches.flatten ++ cur)
  full : ∀ b ∈ batches, b.length = destsFor n
  tgtExtent : d.tgtExtent = some tgt
  submitted : d.submitted = batches.map (filledCtxt n tgt.eLoff len tgt.eFile)

/-- The driver between two extents. Without a target nothing is open. With one,
    either the rest is queued in a context, or the last batch was just flushed and
    only the target is open. -/
inductive Tracks (w : DedupeWorld) (n len : Nat) (pre : List Extent) (d : Driver) : Prop where
  | idle (hopen : opening w pre = []) (htgt : d.tgtExtent = none) (hctxt : d.ctxt = none)
      (hfiles : d.openFiles = []) (hsub : d.submitted = []) (hflushes : d.flushes = 0)
  | filling (tgt : Extent) (batches : List (List Extent)) (cur : List Extent)
      (h : Targets w n len pre d tgt batches cur) (hcur : cur.length < destsFor n)
      (hctxt : d.ctxt = some (filledCtxt n tgt.eLoff len tgt.eFile cur))
      (hne : batches ≠ [] → cur ≠ [])
      (hfiles : ∀ f ∈ d.openFiles, w.opens f = none)
      (hflushes : d.flushes = batches.length)
      (hre : ∀ k < batches.length, w.reopens k tgt.eFile = none)
  | flushed (tgt : Extent) (batches : List (List Extent))
      (h : Targets w n len pre d tgt batches []) (hctxt : d.ctxt = none) (hne : batches ≠ [])
      (hfiles : d.openFiles = [tgt.eFile]) (htgt : w.opens tgt.eFile = none)
      (hflushes : d.flushes = batches.length)
      (hre : ∀ k < batches.length, w.reopens k tgt.eFile = none)

section Round

variable {w : DedupeWorld} {n len : Nat} {pre : List Extent} {d : Driver} {tgt : Extent}
variable {batches : List (List Extent)} {cur : List Extent}

/-- `filerec_open_once` fails exactly for the files that do not open, as long as
    the open files are files that do. -/
theorem filerecOpenOnce_spec {openFiles : List FileId}
    (hfiles : ∀ f ∈ openFiles, w.opens f = none) (e : Extent) :
    (w.canOpen e = true ∧ ∃ files, filerecOpenOnce w.opens e.eFile openFiles = (none, files) ∧
      ∀ f ∈ files, w.opens f = none) ∨
    (w.canOpen e = false ∧ ∃ errno,
      filerecOpenOnce w.opens e.eFile openFiles = (some errno, openFiles)) := by
  unfold filerecOpenOnce DedupeWorld.canOpen
  by_cases hmem : e.eFile ∈ openFiles
  · left
    rw [if_pos hmem, hfiles _ hmem]
    exact ⟨rfl, _, rfl, hfiles⟩
  · rw [if_neg hmem]
    cases hopen : w.opens e.eFile with
    | some errno => exact .inr ⟨rfl, errno, rfl⟩
    | none =>
      refine .inl ⟨rfl, _, rfl, ?_⟩
      intro f hf
      rcases List.mem_cons.1 hf with rfl | hf
      · exact hopen
      · exact hfiles f hf

/-- In every state the open files are files that open. -/
theorem Tracks.files (h : Tracks w n len pre d) : ∀ f ∈ d.openFiles, w.opens f = none := by
  cases h with
  | idle _ _ _ hfiles _ _ =>
    rw [hfiles]
    exact fun f hf => absurd hf List.not_mem_nil
  | filling _ _ _ _ _ _ _ hfiles _ _ => exact hfiles
  | flushed tgt _ _ _ _ hfiles htgt _ _ =>
    rw [hfiles]
    intro f hf
    rw [List.mem_singleton.1 hf]
    exact htgt

/-- Another destination joins the rest. -/
theorem Targets.concat {d' : Driver} {e : Extent} (h : Targets w n len pre d tgt batches cur)
    (hopen : w.canOpen e = true) (htgt : d'.tgtExtent = d.tgtExtent)
    (hsub : d'.submitted = d.submitted) :
    Targets w n len (pre ++ [e]) d' tgt batches (cur ++ [e]) where
  opened := by
    rw [opening_concat, hopen, h.opened]
    simp
  full := h.full
  tgtExtent := htgt.trans h.tgtExtent
  submitted := hsub.trans h.submitted

/-- A file that does not open leaves the destinations as they are. -/
theorem Targets.skip {d' : Driver} {e : Extent} (h : Targets w n len pre d tgt batches cur)
    (hopen : w.canOpen e = false) (htgt : d'.tgtExtent = d.tgtExtent)
    (hsub : d'.submitted = d.submitted) :
    Targets w n len (pre ++ [e]) d' tgt batches cur where
  opened := by
    rw [opening_concat, hopen, h.opened]
    simp
  full := h.full
  tgtExtent := htgt.trans h.tgtExtent
  submitted := hsub.trans h.submitted

/-- A full rest becomes a batch when it is flushed. -/
theorem Targets.flush {d' : Driver} (h : Targets w n len pre d tgt batches cur)
    (hfull : cur.length = destsFor n)
    (hflush : Flushed d [filledCtxt n tgt.eLoff len tgt.eFile cur] d') :
    Targets w n len pre d' tgt (batches ++ [cur]) [] where
  opened := by
    rw [h.opened]
    simp
  full := by
    intro b hb
    rcases List.mem_append.1 hb with hb | hb
    · exact h.full b hb
    · rw [List.mem_singleton.1 hb]
      exact hfull
  tgtExtent := hflush.tgtExtent.trans h.tgtExtent
  submitted := by
    rw [hflush.submitted, h.submitted, List.map_append]
    rfl

/-- Queueing a destination: it joins the context, which is flushed when it is full
    or at the last extent. -/
theorem queueExtent_spec (hn : 0 < n) (hcur : cur.length < destsFor n) (last : Bool) (e : Extent) :
    queueExtent w last d (filledCtxt n tgt.eLoff len tgt.eFile cur) e =
      if cur.length + 1 < destsFor n ∧ last = false then
        .next { d with ctxt := some (filledCtxt n tgt.eLoff len tgt.eFile (cur ++ [e])) }
      else
        runDedupe w last
          { d with ctxt := some (filledCtxt n tgt.eLoff len tgt.eFile (cur ++ [e])) }
          (filledCtxt n tgt.eLoff len tgt.eFile (cur ++ [e])) := by
  have hroom : destsFor n - (cur.length + 1) ≠ 0 ↔ cur.length + 1 < destsFor n := by omega
  simp only [queueExtent, addExtentToDedupe_filled hn hcur, hroom]

/-- `close_files` at the last extent. -/
theorem closeFiles_last (d : Driver) :
    closeFiles w true d = .next { d with openFiles := [], ctxt := none } := rfl

/-- `close_files` in front of a later extent opens the target again. -/
theorem closeFiles_reopen (htgt : d.tgtExtent = some tgt) :
    closeFiles w false d =
      if w.reopens d.flushes tgt.eFile = none then
        .next { d with openFiles := [tgt.eFile], ctxt := none, flushes := d.flushes + 1 }
      else .leave { d with openFiles := [], ctxt := none, flushes := d.flushes + 1 } := by
  simp only [closeFiles, Bool.false_eq_true, if_false, htgt]
  cases hre : w.reopens d.flushes tgt.eFile <;> simp [filerecOpenOnce, hre]

theorem destsFor_pos (hn : 2 ≤ n) : 0 < destsFor n := by
  unfold destsFor maxDedupesPerIoctl
  omega

theorem Targets.tgt_opens (h : Targets w n len pre d tgt batches cur) :
    w.opens tgt.eFile = none := by
  have hmem : tgt ∈ opening w pre := by
    rw [h.opened]
    exact List.mem_cons_self
  have hopen := (List.mem_filter.1 hmem).2
  rwa [DedupeWorld.canOpen, Option.isNone_iff_eq_none] at hopen

/-- The outcome of a round that is not the last one: the driver goes on, it gives
    up because the target does not open again, or it hangs in `dedupe_extents`. -/
def DriverRoundPost (w : DedupeWorld) (n len : Nat) (pre : List Extent) (r : DriverRound) : Prop :=
  (∃ d, r = .next d ∧ Tracks w n len pre d) ∨
    (∃ d tgt batches, r = .leave d ∧ Targets w n len pre d tgt batches [] ∧ batches ≠ [] ∧
      d.ctxt = none ∧ d.openFiles = [] ∧ w.reopens (batches.length - 1) tgt.eFile ≠ none) ∨
    (∃ d tgt batches, r = .stop .stuck d ∧ Targets w n len pre d tgt batches [])

/-- A destination in front of the last extent. -/
theorem queueExtent_tracks {e : Extent} (hn : 2 ≤ n)
    (h : Targets w n len pre d tgt batches cur) (hcur : cur.length < destsFor n)
    (hfiles : ∀ f ∈ d.openFiles, w.opens f = none) (hflushes : d.flushes = batches.length)
    (hre : ∀ k < batches.length, w.reopens k tgt.eFile = none) (hopen : w.canOpen e = true) :
    DriverRoundPost w n len (pre ++ [e])
      (queueExtent w false d (filledCtxt n tgt.eLoff len tgt.eFile cur) e) := by
  rw [queueExtent_spec (by omega) hcur]
  let queued : Driver :=
    { d with ctxt := some (filledCtxt n tgt.eLoff len tgt.eFile (cur ++ [e])) }
  have hqueued : Targets w n len (pre ++ [e]) queued tgt batches (cur ++ [e]) :=
    h.concat hopen rfl rfl
  have hlen : (cur ++ [e]).length = cur.length + 1 := by simp
  by_cases hroom : cur.length + 1 < destsFor n
  · rw [if_pos ⟨hroom, rfl⟩]
    exact .inl ⟨queued, rfl, .filling tgt batches (cur ++ [e]) hqueued (by omega) rfl
      (fun _ => by simp) hfiles hflushes hre⟩
  · rw [if_neg fun hno => hroom hno.1]
    have hne : cur ++ [e] ≠ [] := by simp
    have hfull : (cur ++ [e]).length ≤ destsFor n := by omega
    obtain ⟨d', hflush, hrun⟩ :=
      runDedupe_spec w tgt.eLoff len tgt.eFile (by omega) hfull false queued
    rw [if_neg hne] at hflush
    have hbatch := hqueued.flush (by omega) hflush
    rcases hrun with hrun | ⟨_, hrun⟩
    · rw [hrun, closeFiles_reopen hbatch.tgtExtent, hflush.flushes]
      by_cases hok : w.reopens queued.flushes tgt.eFile = none
      · rw [if_pos hok]
        refine .inl ⟨_, rfl, .flushed tgt (batches ++ [cur ++ [e]])
          ⟨hbatch.opened, hbatch.full, hbatch.tgtExtent, hbatch.submitted⟩ rfl (by simp) rfl
          h.tgt_opens ?_ ?_⟩
        · simp [queued, hflushes]
        · intro k hk
          rw [List.length_append, List.length_singleton] at hk
          by_cases hkb : k < batches.length
          · exact hre k hkb
          · have hkeq : k = queued.flushes := by
              simp only [queued, hflushes]
              omega
            rw [hkeq]
            exact hok
      · rw [if_neg hok]
        refine .inr (.inl ⟨_, tgt, batches ++ [cur ++ [e]], rfl,
          ⟨hbatch.opened, hbatch.full, hbatch.tgtExtent, hbatch.submitted⟩, by simp, rfl, rfl, ?_⟩)
        rw [List.length_append, List.length_singleton, Nat.add_sub_cancel, ← hflushes]
        exact hok
    · exact .inr (.inr ⟨d', tgt, batches ++ [cur ++ [e]], hrun, hbatch⟩)

/-- A file that does not open, in front of the last extent. -/
theorem Tracks.skip {d' : Driver} {e : Extent} (h : Tracks w n len pre d)
    (hopen : w.canOpen e = false)
    (hsame : d' = { d with removed := d'.removed }) : Tracks w n len (pre ++ [e]) d' := by
  have htgt : d'.tgtExtent = d.tgtExtent := by rw [hsame]
  have hsub : d'.submitted = d.submitted := by rw [hsame]
  have hctxt' : d'.ctxt = d.ctxt := by rw [hsame]
  have hfiles' : d'.openFiles = d.openFiles := by rw [hsame]
  have hflushes' : d'.flushes = d.flushes := by rw [hsame]
  cases h with
  | idle hnone hno hctxt hfiles hempty hflushes =>
    refine .idle ?_ (htgt.trans hno) (hctxt'.trans hctxt) (hfiles'.trans hfiles)
      (hsub.trans hempty) (hflushes'.trans hflushes)
    rw [opening_concat, hopen, hnone]
    rfl
  | filling tgt batches cur h hcur hctxt hne hfiles hflushes hre =>
    exact .filling tgt batches cur (h.skip hopen htgt hsub) hcur (hctxt'.trans hctxt) hne
      (by rw [hfiles']; exact hfiles) (hflushes'.trans hflushes) hre
  | flushed tgt batches h hctxt hne hfiles hopens hflushes hre =>
    exact .flushed tgt batches (h.skip hopen htgt hsub) (hctxt'.trans hctxt) hne
      (hfiles'.trans hfiles) hopens (hflushes'.trans hflushes) hre

theorem Driver.unopened_eq (d : Driver) (errno : Nat) (e : Extent) :
    d.unopened errno e = { d with removed := (d.unopened errno e).removed } := by
  unfold unopened
  split <;> rfl

/-- One extent in front of the last one. -/
theorem dedupeRound_tracks (hn : 2 ≤ n) (h : Tracks w n len pre d) (e : Extent) :
    DriverRoundPost w n len (pre ++ [e]) (dedupeRound w n len false e d) := by
  rcases filerecOpenOnce_spec h.files e with ⟨hopen, files, hcall, hfiles'⟩ | ⟨hopen, errno, hcall⟩
  · unfold dedupeRound
    rw [hcall]
    cases h with
    | idle hnone hno hctxt _ hempty hflushes =>
      simp only [hctxt, hno, Bool.false_eq_true, if_false]
      refine .inl ⟨_, rfl, .filling e [] [] ⟨?_, by simp, rfl, hempty⟩ (destsFor_pos hn)
        rfl (fun hne => absurd rfl hne) hfiles' hflushes
        (fun k hk => absurd hk (Nat.not_lt_zero k))⟩
      rw [opening_concat, hopen, hnone]
      rfl
    | filling tgt batches cur h hcur hctxt hne hfiles hflushes hre =>
      simp only [hctxt]
      exact queueExtent_tracks hn ⟨h.opened, h.full, h.tgtExtent, h.submitted⟩ hcur hfiles'
        hflushes hre hopen
    | flushed tgt batches h hctxt hne hfiles hopens hflushes hre =>
      simp only [hctxt, h.tgtExtent, newDedupeCtxt_eq_filled]
      exact queueExtent_tracks hn ⟨h.opened, h.full, rfl, h.submitted⟩
        (destsFor_pos hn) hfiles' hflushes hre hopen
  · have hround : dedupeRound w n len false e d = .next (d.unopened errno e) := by
      rw [dedupeRound_unopened hcall]
      cases (d.unopened errno e).ctxt <;> rfl
    exact .inl ⟨_, hround, h.skip hopen (d.unopened_eq errno e)⟩

end Round

-- ---------------------------------------------------------------------------
-- The whole group
-- ---------------------------------------------------------------------------

/-- The groups that leave files open behind the loop: the destinations fill their
    contexts exactly, the target opens again after each of them, and the last
    extent's file does not open. -/
structure LeavesFilesOpen (w : DedupeWorld) (extents : List Extent) : Prop where
  dests : (opening w extents).tail ≠ []
  full : destsFor extents.length ∣ (opening w extents).tail.length
  last : ∀ e, extents.getLast? = some e → w.canOpen e = false
  reopened : ∀ tgt, (opening w extents).head? = some tgt →
    ∀ k < (opening w extents).tail.length / destsFor extents.length, w.reopens k tgt.eFile = none

/-- What was submitted of a group: the destinations without `rest`, cut into
    `batches`. -/
structure Submits (w : DedupeWorld) (n len : Nat) (extents : List Extent) (d : Driver)
    (batches : List (List Extent)) (rest : List Extent) : Prop where
  split : (opening w extents).tail = batches.flatten ++ rest
  sizes : ∀ b ∈ batches, b ≠ [] ∧ b.length ≤ destsFor n
  full : ∀ b ∈ batches.dropLast, b.length = destsFor n
  cut : rest ≠ [] → ∀ b ∈ batches, b.length = destsFor n
  submitted : ∀ tgt, (opening w extents).head? = some tgt →
    d.submitted = batches.map (filledCtxt n tgt.eLoff len tgt.eFile)
  nothing : opening w extents = [] → d.submitted = []

/-- How the driver ends on a group. -/
structure DriverPost (w : DedupeWorld) (n len : Nat) (extents : List Extent)
    (r : DriverExit × Driver) (batches : List (List Extent)) (rest : List Extent) : Prop where
  submits : Submits w n len extents r.2 batches rest
  target : r.2.tgtExtent = extents.dropLast.find? w.canOpen
  ends : r.1 = .stuck ∨
    (r.1 = .returned ∧ ¬ LeavesFilesOpen w extents ∧
      (rest = [] ∨ ∃ tgt k, (opening w extents).head? = some tgt ∧
        w.reopens k tgt.eFile ≠ none)) ∨
    (r.1 = .aborted .openFilesLeft ∧ LeavesFilesOpen w extents ∧ rest = [])

section Group

variable {w : DedupeWorld} {n len : Nat} {pre : List Extent} {d : Driver} {tgt : Extent}
variable {batches : List (List Extent)} {cur : List Extent}

theorem Targets.flatten_length (h : Targets w n len pre d tgt batches cur) :
    batches.flatten.length = batches.length * destsFor n := by
  have hfull := h.full
  clear h
  induction batches with
  | nil => simp
  | cons b bs ih =>
    rw [List.flatten_cons, List.length_append, hfull b List.mem_cons_self,
      ih fun b hb => hfull b (List.mem_cons_of_mem _ hb), List.length_cons, Nat.succ_mul]
    omega

theorem Targets.sizes (hn : 2 ≤ n) (h : Targets w n len pre d tgt batches cur) :
    ∀ b ∈ batches, b ≠ [] ∧ b.length ≤ destsFor n := by
  intro b hb
  have hlen := h.full b hb
  have hpos := destsFor_pos hn
  exact ⟨fun hnil => by rw [hnil, List.length_nil] at hlen; omega, by omega⟩

/-- The target that was picked is the first extent that opens. -/
theorem Targets.find (h : Targets w n len pre d tgt batches cur) (more : List Extent) :
    (pre ++ more).find? w.canOpen = some tgt := by
  rw [← List.head?_filter]
  show (opening w (pre ++ more)).head? = some tgt
  rw [opening_append, h.opened]
  rfl

/-- The batches submitted in front of the end of the group. -/
theorem Targets.submits (hn : 2 ≤ n) (h : Targets w n len pre d tgt batches cur)
    (more : List Extent) :
    Submits w n len (pre ++ more) d batches (cur ++ opening w more) where
  split := by
    rw [opening_append, h.opened]
    simp
  sizes := h.sizes hn
  full := fun b hb => h.full b (List.dropLast_subset _ hb)
  cut := fun _ => h.full
  submitted := by
    intro tgt' htgt'
    rw [opening_append, h.opened] at htgt'
    cases htgt'
    exact h.submitted
  nothing := by
    intro hnone
    rw [opening_append, h.opened] at hnone
    cases hnone

/-- The last flush submits the rest as a batch of its own. -/
theorem Targets.submits_last (hn : 2 ≤ n) {d' : Driver}
    (h : Targets w n len pre d tgt batches cur) (hcur : cur.length ≤ destsFor n)
    (hflush : Flushed d (if cur = [] then [] else [filledCtxt n tgt.eLoff len tgt.eFile cur]) d') :
    Submits w n len pre d' (batches ++ if cur = [] then [] else [cur]) [] where
  split := by
    rw [h.opened]
    by_cases hnil : cur = [] <;> simp [hnil]
  sizes := by
    intro b hb
    rcases List.mem_append.1 hb with hb | hb
    · exact h.sizes hn b hb
    · by_cases hnil : cur = []
      · simp [hnil] at hb
      · rw [if_neg hnil, List.mem_singleton] at hb
        subst hb
        exact ⟨hnil, hcur⟩
  full := by
    intro b hb
    by_cases hnil : cur = []
    · rw [if_pos hnil, List.append_nil] at hb
      exact h.full b (List.dropLast_subset _ hb)
    · rw [if_neg hnil, List.dropLast_concat] at hb
      exact h.full b hb
  cut := fun hne => absurd rfl hne
  submitted := by
    intro tgt' htgt'
    rw [h.opened] at htgt'
    cases htgt'
    rw [hflush.submitted, h.submitted, List.map_append]
    by_cases hnil : cur = [] <;> simp [hnil]
  nothing := by
    intro hnone
    rw [h.opened] at hnone
    cases hnone

/-- What follows the round at the last extent. -/
def lastExit : DriverRound → DriverExit × Driver
  | .next d => driverEnd d
  | .leave d => driverEnd d
  | .stop exit d => (exit, d)

theorem driverLoop_singleton (w : DedupeWorld) (n len : Nat) (e : Extent) (d : Driver) :
    driverLoop w n len [e] d = lastExit (dedupeRound w n len true e d) := by
  unfold driverLoop lastExit
  rw [List.isEmpty_nil]
  cases dedupeRound w n len true e d <;> rfl

/-- A flush at the last extent submits what is queued and closes everything. -/
theorem lastExit_runDedupe (hn : 2 ≤ n) (h : Targets w n len pre d tgt batches cur)
    (hcur : cur.length ≤ destsFor n) :
    ∃ exit d', lastExit (runDedupe w true d (filledCtxt n tgt.eLoff len tgt.eFile cur)) =
        (exit, d') ∧ (exit = .stuck ∨ exit = .returned) ∧ d'.tgtExtent = some tgt ∧
      Submits w n len pre d' (batches ++ if cur = [] then [] else [cur]) [] := by
  obtain ⟨d', hflush, hrun⟩ :=
    runDedupe_spec w tgt.eLoff len tgt.eFile (by omega) hcur true d
  have hsubmits := h.submits_last hn hcur hflush
  have htgt : d'.tgtExtent = some tgt := hflush.tgtExtent.trans h.tgtExtent
  rcases hrun with hrun | ⟨_, hrun⟩
  · rw [hrun, closeFiles_last]
    exact ⟨.returned, { d' with openFiles := [], ctxt := none }, rfl, .inr rfl, htgt,
      ⟨hsubmits.split, hsubmits.sizes, hsubmits.full, hsubmits.cut, hsubmits.submitted,
        hsubmits.nothing⟩⟩
  · rw [hrun]
    exact ⟨.stuck, d', rfl, .inl rfl, htgt, hsubmits⟩

/-- A destination at the last extent. -/
theorem queueExtent_last {e : Extent} (hn : 2 ≤ n) (h : Targets w n len pre d tgt batches cur)
    (hcur : cur.length < destsFor n) (hopen : w.canOpen e = true) :
    ∃ bs, DriverPost w n len (pre ++ [e])
      (lastExit (queueExtent w true d (filledCtxt n tgt.eLoff len tgt.eFile cur) e)) bs [] := by
  rw [queueExtent_spec (by omega) hcur, if_neg (by simp)]
  have hqueued : Targets w n len (pre ++ [e])
      { d with ctxt := some (filledCtxt n tgt.eLoff len tgt.eFile (cur ++ [e])) } tgt batches
      (cur ++ [e]) := h.concat hopen rfl rfl
  obtain ⟨exit, d', heq, hexit, htgt, hsubmits⟩ :=
    lastExit_runDedupe hn hqueued (by simp; omega)
  rw [heq]
  refine ⟨_, hsubmits, ?_, ?_⟩
  · have hfind := h.find []
    rw [List.append_nil] at hfind
    rw [List.dropLast_concat, htgt, hfind]
  · rcases hexit with hstuck | hret
    · exact .inl hstuck
    · refine .inr (.inl ⟨hret, fun hleaves => ?_, .inl rfl⟩)
      have hno := hleaves.last e (by simp)
      rw [hopen] at hno
      cases hno

/-- A last extent that does not open is not the target. -/
theorem find_dropLast_concat {e : Extent} (hopen : w.canOpen e = false) :
    (pre ++ [e]).dropLast.find? w.canOpen = (pre ++ [e]).find? w.canOpen := by
  rw [List.dropLast_concat, List.find?_append]
  simp [hopen]

/-- A rest that is queued at the end does not fill its context. -/
theorem Targets.not_leaves (h : Targets w pre.length len pre d tgt batches cur)
    (hcur : cur.length < destsFor pre.length) (hne : batches ≠ [] → cur ≠ []) :
    ¬ LeavesFilesOpen w pre := by
  intro hleaves
  have htail : (opening w pre).tail = batches.flatten ++ cur := by
    rw [h.opened]
    rfl
  have hfull := hleaves.full
  rw [htail, List.length_append, h.flatten_length,
    Nat.dvd_add_right (Nat.dvd_mul_left _ _)] at hfull
  by_cases hnil : cur = []
  · have hbatches : batches = [] := by
      by_contra hsome
      exact hne hsome hnil
    exact hleaves.dests (by rw [htail, hbatches, hnil]; rfl)
  · have := Nat.le_of_dvd (List.length_pos_iff.2 hnil) hfull
    omega

/-- After a flush with the target open again, a last extent that does not open
    leaves it open. -/
theorem Targets.leaves {e : Extent} (h : Targets w (pre ++ [e]).length len (pre ++ [e]) d tgt
      batches []) (hn : 2 ≤ (pre ++ [e]).length) (hne : batches ≠ [])
    (hre : ∀ k < batches.length, w.reopens k tgt.eFile = none) (hopen : w.canOpen e = false) :
    LeavesFilesOpen w (pre ++ [e]) := by
  have htail : (opening w (pre ++ [e])).tail = batches.flatten := by
    rw [h.opened, List.append_nil]
    rfl
  have hpos := destsFor_pos hn
  refine ⟨?_, ?_, ?_, ?_⟩
  · rw [htail]
    intro hnil
    have hlen := h.flatten_length
    rw [hnil, List.length_nil] at hlen
    have := Nat.mul_pos (List.length_pos_iff.2 hne) hpos
    omega
  · rw [htail, h.flatten_length]
    exact Nat.dvd_mul_left _ _
  · intro a ha
    rw [List.getLast?_concat] at ha
    cases ha
    exact hopen
  · intro tgt' htgt' k hk
    rw [h.opened] at htgt'
    cases htgt'
    rw [htail, h.flatten_length, Nat.mul_div_cancel _ hpos] at hk
    exact hre k hk

/-- Nothing is submitted when no file in front of the last extent opens. -/
theorem driverPost_none {e : Extent} (hnone : opening w pre = []) (hno : d.tgtExtent = none)
    (hsub : d.submitted = []) :
    DriverPost w (pre ++ [e]).length len (pre ++ [e]) (.returned, d) [] [] := by
  have htail : (opening w (pre ++ [e])).tail = [] := by
    rw [opening_concat, hnone]
    cases w.canOpen e <;> rfl
  refine ⟨⟨by simp [htail], by simp, by simp, by simp, fun _ _ => hsub, fun _ => hsub⟩, ?_,
    .inr (.inl ⟨rfl, fun hleaves => hleaves.dests htail, .inl rfl⟩)⟩
  rw [List.dropLast_concat, hno, ← List.head?_filter]
  show none = (opening w pre).head?
  rw [hnone]
  rfl

/-- A last extent that does not open: what is queued is flushed. -/
theorem lastExit_unopened {e : Extent} (hn : 2 ≤ (pre ++ [e]).length) (hopen : w.canOpen e = false)
    (hskip : Tracks w (pre ++ [e]).length len (pre ++ [e]) d) :
    ∃ bs, DriverPost w (pre ++ [e]).length len (pre ++ [e])
      (lastExit (match d.ctxt with
        | some ctxt => runDedupe w true d ctxt
        | none => .next d)) bs [] := by
  cases hskip with
  | idle hnone hno hctxt hfiles hsub _ =>
    have hpre : opening w pre = [] := by
      rw [opening_concat, hopen] at hnone
      simpa using hnone
    rw [hctxt]
    have hend : lastExit (.next d) = (.returned, d) := by
      simp [lastExit, driverEnd, hctxt, hfiles]
    refine ⟨[], ?_⟩
    simp only
    rw [hend]
    exact driverPost_none hpre hno hsub
  | filling tgt batches cur h hcur hctxt hne hfiles hflushes hre =>
    rw [hctxt]
    obtain ⟨exit, d', heq, hexit, htgt, hsubmits⟩ := lastExit_runDedupe hn h (by omega)
    simp only
    rw [heq]
    have hfind := h.find []
    rw [List.append_nil] at hfind
    refine ⟨_, hsubmits, ?_, ?_⟩
    · rw [htgt, find_dropLast_concat hopen, hfind]
    · rcases hexit with hstuck | hret
      · exact .inl hstuck
      · exact .inr (.inl ⟨hret, h.not_leaves hcur hne, .inl rfl⟩)
  | flushed tgt batches h hctxt hne hfiles hopens hflushes hre =>
    rw [hctxt]
    have hend : lastExit (.next d) = (.aborted .openFilesLeft, d) := by
      simp [lastExit, driverEnd, hctxt, hfiles]
    have hfind := h.find []
    have hsubmits := h.submits hn []
    rw [List.append_nil] at hfind hsubmits
    simp only
    rw [hend]
    refine ⟨batches, hsubmits, ?_, .inr (.inr ⟨rfl, h.leaves hn hne hre hopen, rfl⟩)⟩
    rw [h.tgtExtent, find_dropLast_concat hopen, hfind]

/-- The last extent. -/
theorem driverLoop_last {e : Extent} (h : Tracks w (pre ++ [e]).length len pre d)
    (hn : 2 ≤ (pre ++ [e]).length) :
    ∃ bs, DriverPost w (pre ++ [e]).length len (pre ++ [e])
      (driverLoop w (pre ++ [e]).length len [e] d) bs [] := by
  rw [driverLoop_singleton]
  rcases filerecOpenOnce_spec h.files e with ⟨hopen, files, hcall, hfiles'⟩ | ⟨hopen, errno, hcall⟩
  · unfold dedupeRound
    rw [hcall]
    cases h with
    | idle hnone hno hctxt _ hsub _ =>
      simp only [hctxt, hno, if_true]
      exact ⟨[], driverPost_none hnone rfl hsub⟩
    | filling tgt batches cur h hcur hctxt hne hfiles hflushes hre =>
      simp only [hctxt]
      exact queueExtent_last hn ⟨h.opened, h.full, h.tgtExtent, h.submitted⟩ hcur hopen
    | flushed tgt batches h hctxt hne hfiles hopens hflushes hre =>
      simp only [hctxt, h.tgtExtent, newDedupeCtxt_eq_filled]
      exact queueExtent_last hn ⟨h.opened, h.full, rfl, h.submitted⟩
        (destsFor_pos hn) hopen
  · have hskip := h.skip hopen (d.unopened_eq errno e)
    rw [dedupeRound_unopened hcall]
    simp only [if_true]
    exact lastExit_unopened hn hopen hskip

/-- The walk over the rest of a group from a state that tracks its beginning. -/
theorem driverLoop_post {extents rest : List Extent} (hn : 2 ≤ extents.length)
    (pre : List Extent) (hsplit : extents = pre ++ rest) (hne : rest ≠ [])
    (h : Tracks w extents.length len pre d) :
    ∃ batches left, DriverPost w extents.length len extents
      (driverLoop w extents.length len rest d) batches left := by
  induction rest generalizing pre d with
  | nil => exact absurd rfl hne
  | cons e rest ih =>
    cases rest with
    | nil =>
      subst hsplit
      obtain ⟨batches, hpost⟩ := driverLoop_last h hn
      exact ⟨batches, [], hpost⟩
    | cons e' rest =>
      have hsplit' : extents = (pre ++ [e]) ++ e' :: rest := by rw [hsplit]; simp
      -- The target lies in front of the last extent, so it is the one of the whole group.
      have htarget : ∀ {d' : Driver} {tgt : Extent} {batches : List (List Extent)},
          Targets w extents.length len (pre ++ [e]) d' tgt batches [] →
          d'.tgtExtent = extents.dropLast.find? w.canOpen := by
        intro d' tgt batches htgt
        have hdrop : extents.dropLast = (pre ++ [e]) ++ (e' :: rest).dropLast := by
          rw [hsplit', List.dropLast_append_of_ne_nil (by simp)]
        rw [hdrop, htgt.find, htgt.tgtExtent]
      rcases dedupeRound_tracks hn h e with ⟨d', hround, htracks⟩ |
        ⟨d', tgt, batches, hround, htgt, hbatches, hctxt, hfiles, hre⟩ |
        ⟨d', tgt, batches, hround, htgt⟩
      · have hloop : driverLoop w extents.length len (e :: e' :: rest) d =
            driverLoop w extents.length len (e' :: rest) d' := by
          rw [driverLoop, List.isEmpty_cons, hround]
        rw [hloop]
        exact ih (pre ++ [e]) hsplit' (by simp) htracks
      · have hloop : driverLoop w extents.length len (e :: e' :: rest) d = (.returned, d') := by
          rw [driverLoop, List.isEmpty_cons, hround]
          simp [driverEnd, hctxt, hfiles]
        have hsubmits := htgt.submits hn (e' :: rest)
        rw [← hsplit'] at hsubmits
        have hhead : (opening w extents).head? = some tgt := by
          rw [hsplit', opening_append, htgt.opened]
          rfl
        rw [hloop]
        refine ⟨batches, _, hsubmits, htarget htgt, .inr (.inl ⟨rfl, fun hleaves => ?_,
          .inr ⟨tgt, _, hhead, hre⟩⟩)⟩
        refine hre (hleaves.reopened tgt hhead _ ?_)
        have hpos := destsFor_pos hn
        have hlen := htgt.flatten_length
        have hsome := List.length_pos_iff.2 hbatches
        rw [hsubmits.split, List.length_append, hlen, Nat.add_comm,
          Nat.add_mul_div_right _ _ hpos]
        exact Nat.lt_of_lt_of_le (by omega) (Nat.le_add_left _ _)
      · have hloop : driverLoop w extents.length len (e :: e' :: rest) d = (.stuck, d') := by
          rw [driverLoop, List.isEmpty_cons, hround]
        have hsubmits := htgt.submits hn (e' :: rest)
        rw [← hsplit'] at hsubmits
        rw [hloop]
        exact ⟨batches, _, hsubmits, htarget htgt, .inl rfl⟩

/-- The driver on a whole group. -/
theorem dedupeExtentList_post {extents : List Extent} (hn : 2 ≤ extents.length) (w : DedupeWorld)
    (len fsBlocksize kernBytes : Nat) :
    ∃ batches left, DriverPost w extents.length len extents
      (dedupeExtentList w len extents fsBlocksize kernBytes) batches left := by
  refine driverLoop_post hn [] rfl ?_ (.idle rfl rfl rfl rfl rfl rfl)
  rintro rfl
  simp at hn

/-- The destinations of a context. -/
def DedupeCtxt.dests (ctxt : DedupeCtxt) : List Extent :=
  ctxt.queued.map fun r => ⟨r.reqFile, r.reqLoff⟩

theorem filledCtxt_dests (n loff len : Nat) (file : FileId) (ds : List Extent) :
    (filledCtxt n loff len file ds).dests = ds := by
  apply List.ext_getElem?
  intro i
  simp only [DedupeCtxt.dests, filledCtxt, List.getElem?_map, List.getElem?_mapIdx]
  cases ds[i]? <;> rfl

/-- The contexts submitted for the batches have the batches as destinations. -/
theorem flatMap_dests (n len : Nat) (tgt : Extent) (batches : List (List Extent)) :
    (batches.map (filledCtxt n tgt.eLoff len tgt.eFile)).flatMap DedupeCtxt.dests =
      batches.flatten := by
  rw [List.flatMap_map, List.flatten_eq_flatMap]
  congr 1
  funext b
  exact filledCtxt_dests _ _ _ _ b

/-- When there are destinations, the first extent that opens is not the last
    one. -/
theorem find_dropLast_of_tail {extents : List Extent}
    (hhead : (opening w extents).head? = some tgt) (htail : (opening w extents).tail ≠ []) :
    extents.dropLast.find? w.canOpen = some tgt := by
  have hne : extents ≠ [] := by
    rintro rfl
    exact htail rfl
  have hsplit := List.dropLast_append_getLast hne
  rw [← hsplit, opening_concat] at hhead htail
  rw [← List.head?_filter]
  show (opening w extents.dropLast).head? = some tgt
  cases hpre : opening w extents.dropLast with
  | nil =>
    rw [hpre, List.nil_append] at htail
    split at htail <;> exact absurd rfl htail
  | cons a as =>
    rw [hpre] at hhead
    exact hhead

/-- The destinations submitted are the batches. -/
theorem Submits.dests {extents left : List Extent} (h : Submits w n len extents d batches left) :
    d.submitted.flatMap DedupeCtxt.dests = batches.flatten := by
  cases hopen : opening w extents with
  | nil =>
    have hsplit := h.split
    rw [hopen, List.tail_nil, eq_comm, List.append_eq_nil_iff] at hsplit
    rw [h.nothing hopen, hsplit.1]
    rfl
  | cons tgt rest => rw [h.submitted tgt (by rw [hopen]; rfl), flatMap_dests]

/-- A context that was submitted is for the target, and a batch of the extents behind
    it. -/
theorem Submits.context {extents left : List Extent} {ctxt : DedupeCtxt}
    (h : Submits w n len extents d batches left) (hctxt : ctxt ∈ d.submitted) :
    ∃ tgt rest b, opening w extents = tgt :: rest ∧ ctxt = filledCtxt n tgt.eLoff len tgt.eFile b ∧
      b ≠ [] ∧ b.length ≤ destsFor n ∧ ∀ e ∈ b, e ∈ rest := by
  cases hopen : opening w extents with
  | nil =>
    rw [h.nothing hopen] at hctxt
    cases hctxt
  | cons tgt rest =>
    rw [h.submitted tgt (by rw [hopen]; rfl)] at hctxt
    obtain ⟨b, hb, rfl⟩ := List.mem_map.1 hctxt
    obtain ⟨hsome, hlen⟩ := h.sizes b hb
    refine ⟨tgt, rest, b, rfl, rfl, hsome, hlen, fun e he => ?_⟩
    have hsplit := h.split
    rw [hopen, List.tail_cons] at hsplit
    rw [hsplit]
    exact List.mem_append_left _ (List.mem_flatten_of_mem hb he)

/-- What is submitted of a group, within any bound. The target is the first extent that
    opens, unless it is the last extent. The contexts have the target's file, offset and
    the group's length, at most 119 destinations, and never the target among them.
    Their destinations, in order, are the later extents that open, each once; a
    call of `dedupe_extents` that does not end cuts this list short. The aborts of
    the two functions that add requests do not fire. -/
theorem dedupeExtentList_batches {extents : List Extent} (hn : 2 ≤ extents.length)
    (hdistinct : extents.Nodup) (w : DedupeWorld) (hfixed : ∀ k f, w.reopens k f = w.opens f)
    (len fsBlocksize kernBytes : Nat) {exit : DriverExit}
    (hrun : dedupeExtentList w len extents fsBlocksize kernBytes = (exit, d)) :
    d.tgtExtent = extents.dropLast.find? w.canOpen ∧
    (∀ ctxt ∈ d.submitted, ∃ tgt, d.tgtExtent = some tgt ∧ ctxt.ioctlFile = tgt.eFile ∧
      ctxt.origFileOff = tgt.eLoff ∧ ctxt.origLen = len ∧ tgt ∉ ctxt.dests ∧
      ctxt.dests.length ≤ 119) ∧
    (d.submitted.flatMap DedupeCtxt.dests).Nodup ∧
    d.submitted.flatMap DedupeCtxt.dests <+: (opening w extents).tail ∧
    (exit ≠ .stuck → d.submitted.flatMap DedupeCtxt.dests = (opening w extents).tail) ∧
    exit ≠ .aborted .addExtent ∧ exit ≠ .aborted .addRequest := by
  obtain ⟨batches, left, hsubmits, htarget, hends⟩ :=
    dedupeExtentList_post hn w len fsBlocksize kernBytes
  rw [hrun] at hsubmits htarget hends
  have hnodup : (opening w extents).Nodup := hdistinct.filter _
  have hflat := hsubmits.dests
  have hstart : d.submitted.flatMap DedupeCtxt.dests <+: (opening w extents).tail :=
    ⟨left, by rw [hflat, hsubmits.split]⟩
  refine ⟨htarget, ?_, ?_, hstart, ?_, ?_, ?_⟩
  · intro ctxt hmem
    obtain ⟨tgt, rest, b, hopen, rfl, hsome, hlen, hrest⟩ := hsubmits.context hmem
    have hhead : (opening w extents).head? = some tgt := by rw [hopen]; rfl
    have htail : (opening w extents).tail ≠ [] := by
      obtain ⟨e, he⟩ := List.exists_mem_of_ne_nil b hsome
      rw [hopen]
      exact List.ne_nil_of_mem (hrest e he)
    refine ⟨tgt, htarget.trans (find_dropLast_of_tail hhead htail), rfl, rfl, rfl, ?_, ?_⟩
    · rw [filledCtxt_dests]
      intro htgt
      rw [hopen] at hnodup
      exact (List.nodup_cons.1 hnodup).1 (hrest tgt htgt)
    · rw [filledCtxt_dests]
      exact Nat.le_trans hlen (destsFor_le _)
  · exact (hnodup.sublist (List.tail_sublist _)).sublist hstart.sublist
  · intro hstuck
    rcases hends with hno | ⟨_, _, hleft | ⟨tgt, k, hhead, hre⟩⟩ | ⟨_, _, hleft⟩
    · exact absurd hno hstuck
    · rw [hflat, hsubmits.split, hleft, List.append_nil]
    · -- The target opened, so it opens again.
      have hmem : tgt ∈ opening w extents := List.mem_of_mem_head? hhead
      have hopens := (List.mem_filter.1 hmem).2
      rw [DedupeWorld.canOpen, Option.isNone_iff_eq_none] at hopens
      rw [hfixed k, hopens] at hre
      exact absurd rfl hre
    · rw [hflat, hsubmits.split, hleft, List.append_nil]
  · rcases hends with h | ⟨h, _⟩ | ⟨h, _⟩ <;> simp only at h <;> rw [h] <;> decide
  · rcases hends with h | ⟨h, _⟩ | ⟨h, _⟩ <;> simp only at h <;> rw [h] <;> decide

/-- Four files of which the first was deleted. -/
def deletedWorld : DedupeWorld where
  opens := fun f => if f = 1 then some enoent else none
  reopens := fun _ f => if f = 1 then some enoent else none
  kernel := pageKernel
  fuel := 100

/-- A run whose calls of `dedupe_extents` end reaches the end of the function
    exactly when it does not leave files open. -/
theorem dedupeExtentList_returned_iff {extents : List Extent} (hn : 2 ≤ extents.length)
    (fsBlocksize kernBytes : Nat)
    (hends : (dedupeExtentList w len extents fsBlocksize kernBytes).1 ≠ .stuck) :
    (dedupeExtentList w len extents fsBlocksize kernBytes).1 = .returned ↔
      ¬ LeavesFilesOpen w extents := by
  obtain ⟨batches, left, -, -, hpost⟩ := dedupeExtentList_post hn w len fsBlocksize kernBytes
  rcases hpost with hstuck | ⟨hret, hleaves, _⟩ | ⟨habort, hleaves, _⟩
  · exact absurd hstuck hends
  · exact ⟨fun _ => hleaves, fun _ => hret⟩
  · refine ⟨fun hret => ?_, fun hno => absurd hleaves hno⟩
    rw [habort] at hret
    cases hret

theorem dedupeExtentList_returned_deletedWorld :
    (dedupeExtentList deletedWorld 4096 [⟨1, 0⟩, ⟨2, 0⟩, ⟨3, 0⟩, ⟨4, 0⟩] 0 0).1 = .returned := by
  refine (dedupeExtentList_returned_iff (by decide) 0 0 (by decide)).2 fun hleaves => ?_
  exact absurd hleaves.full (by decide)

end Group

/-- A group of 121 extents in as many files. -/
def trailingGroup : List Extent := (List.range 121).map fun i => ⟨i, 0⟩

/-- The last of them was deleted. -/
def trailingWorld : DedupeWorld where
  opens := fun f => if f = 120 then some enoent else none
  reopens := fun _ f => if f = 120 then some enoent else none
  kernel := pageKernel
  fuel := 1000

/-- The target opens again after the first 119 destinations, and nothing closes
    it. -/
theorem dedupeExtentList_aborts_trailingGroup :
    2 ≤ trailingGroup.length ∧
      (dedupeExtentList trailingWorld 4096 trailingGroup 0 0).1 = .aborted .openFilesLeft := by
  decide +kernel

end Duperemove
