-- SUMMARY: Coverage of a group by the batch driver, for the kernels under which its calls of `dedupe_extents` end.
import Duperemove.Dedupe.Settles

/-!
# Coverage of a group

The driver waits for `dedupe_extents` behind every batch. What it submits is right for
every kernel, but it gets to a later batch only if the calls for the batches in front
of it end. `GetsThrough` says so in terms of the answers to their ioctls, and then
all later extents that open are submitted.
-/

namespace Duperemove

/-! ## Calls one after the other -/

/-- The calls of `dedupe_extents` for some contexts: the block size and the number of
    ioctls behind them, or nothing if one of them does not end within the bound. -/
def callAll (w : DedupeWorld) (ctxts : List DedupeCtxt) (st : Nat × Nat) : Option (Nat × Nat) :=
  ctxts.foldlM (fun st ctxt => (dedupeExtents w.kernel w.fuel ctxt st.1 st.2).map fun s =>
    (s.fsBlocksize, s.ioctls)) st

theorem callAll_cons (w : DedupeWorld) (ctxt : DedupeCtxt) (ctxts : List DedupeCtxt)
    (st : Nat × Nat) :
    callAll w (ctxt :: ctxts) st =
      (dedupeExtents w.kernel w.fuel ctxt st.1 st.2).bind fun s =>
        callAll w ctxts (s.fsBlocksize, s.ioctls) := by
  rw [callAll, List.foldlM_cons, Option.bind_eq_bind, Option.bind_map]
  rfl

theorem callAll_append (w : DedupeWorld) (ctxts ctxts' : List DedupeCtxt) (st : Nat × Nat) :
    callAll w (ctxts ++ ctxts') st = (callAll w ctxts st).bind (callAll w ctxts') :=
  List.foldlM_append

theorem callAll_concat (w : DedupeWorld) (ctxts : List DedupeCtxt) (ctxt : DedupeCtxt)
    (st : Nat × Nat) :
    callAll w (ctxts ++ [ctxt]) st = (callAll w ctxts st).bind fun st =>
      (dedupeExtents w.kernel w.fuel ctxt st.1 st.2).map fun s => (s.fsBlocksize, s.ioctls) := by
  rw [callAll_append]
  congr 1
  funext st
  rw [callAll_cons]
  cases dedupeExtents w.kernel w.fuel ctxt st.1 st.2 <;> rfl

section Called

variable {w : DedupeWorld} {n len : Nat} {st : Nat × Nat} {d : Driver}

/-- The contexts that were submitted were served, and left what the driver has. -/
def Driver.Called (w : DedupeWorld) (st : Nat × Nat) (d : Driver) : Prop :=
  callAll w d.submitted st = some (d.fsBlocksize, d.ioctls)

/-- The call for the last context that was submitted does not end. -/
def Driver.Hangs (w : DedupeWorld) (st : Nat × Nat) (d : Driver) : Prop :=
  ∃ ctxts ctxt st', d.submitted = ctxts ++ [ctxt] ∧ callAll w ctxts st = some st' ∧
    dedupeExtents w.kernel w.fuel ctxt st'.1 st'.2 = none

/-- A round serves what it submits, or hangs in its last call. -/
def DriverRound.Called (w : DedupeWorld) (st : Nat × Nat) : DriverRound → Prop
  | .next d => d.Called w st
  | .leave d => d.Called w st
  | .stop exit d => (exit = .stuck → d.Hangs w st) ∧ exit ≠ .returned ∧
      exit ≠ .aborted .openFilesLeft

theorem closeFiles_called (h : d.Called w st) (last : Bool) :
    (closeFiles w last d).Called w st := by
  unfold closeFiles
  cases last with
  | true => exact h
  | false =>
    simp only [Bool.false_eq_true, if_false]
    cases d.tgtExtent with
    | none => simp [DriverRound.Called]
    | some tgt =>
      simp only
      cases (filerecOpenOnce (w.reopens d.flushes) tgt.eFile []).1 <;> exact h

theorem runDedupe_called (h : d.Called w st) (last : Bool) (ctxt : DedupeCtxt) :
    (runDedupe w last d ctxt).Called w st := by
  unfold runDedupe
  split
  · exact closeFiles_called h last
  · simp only
    cases hrun : dedupeExtents w.kernel w.fuel ctxt d.fsBlocksize d.ioctls with
    | none => exact ⟨fun _ => ⟨d.submitted, ctxt, _, rfl, h, hrun⟩, by simp, by simp⟩
    | some s =>
      have hcalled : callAll w (d.submitted ++ [ctxt]) st = some (s.fsBlocksize, s.ioctls) := by
        rw [callAll_concat, h, Option.bind_some, hrun]
        rfl
      simp only
      split
      · split
        · exact closeFiles_called (by exact hcalled) last
        · simp [DriverRound.Called]
      · split
        · simp [DriverRound.Called]
        · exact closeFiles_called (by exact hcalled) last

theorem queueExtent_called (h : d.Called w st) (last : Bool) (ctxt : DedupeCtxt) (e : Extent) :
    (queueExtent w last d ctxt e).Called w st := by
  unfold queueExtent
  split
  · simp [DriverRound.Called]
  · simp only
    split
    · exact h
    · exact runDedupe_called (by exact h) last _

theorem dedupeRound_called (h : d.Called w st) (last : Bool) (e : Extent) :
    (dedupeRound w n len last e d).Called w st := by
  cases hcall : filerecOpenOnce w.opens e.eFile d.openFiles with
  | mk errno files =>
    cases errno with
    | some errno =>
      have hskip : (d.unopened errno e).Called w st := by
        rw [d.unopened_eq errno e]
        exact h
      rw [dedupeRound_unopened hcall]
      split
      · split
        · exact runDedupe_called hskip last _
        · exact hskip
      · exact hskip
    | none =>
      unfold dedupeRound
      rw [hcall]
      simp only
      split
      · exact queueExtent_called (by exact h) last _ e
      · exact queueExtent_called (by exact h) last _ e
      · split
        · exact closeFiles_called (by exact h) last
        · exact h

/-- The walk over a group serves what it submits, or hangs in its last call. -/
theorem driverLoop_called (h : d.Called w st) (extents : List Extent) :
    ((driverLoop w n len extents d).1 = .stuck →
      (driverLoop w n len extents d).2.Hangs w st) ∧
    ((driverLoop w n len extents d).1 = .returned ∨
        (driverLoop w n len extents d).1 = .aborted .openFilesLeft →
      (driverLoop w n len extents d).2.Called w st) := by
  have hend : ∀ d : Driver, d.Called w st →
      ((driverEnd d).1 = .stuck → (driverEnd d).2.Hangs w st) ∧
      ((driverEnd d).1 = .returned ∨ (driverEnd d).1 = .aborted .openFilesLeft →
        (driverEnd d).2.Called w st) := by
    intro d hd
    unfold driverEnd
    split
    · simp
    · split
      · exact ⟨fun hno => (by cases hno), fun _ => hd⟩
      · exact ⟨fun hno => (by cases hno), fun _ => hd⟩
  induction extents generalizing d with
  | nil => exact hend d h
  | cons e rest ih =>
    have hround := @dedupeRound_called w n len st d h rest.isEmpty e
    rw [driverLoop]
    cases hcase : dedupeRound w n len rest.isEmpty e d with
    | next d' =>
      rw [hcase] at hround
      exact ih hround
    | leave d' =>
      rw [hcase] at hround
      exact hend d' hround
    | stop exit d' =>
      rw [hcase] at hround
      obtain ⟨hstuck, hret, hleft⟩ := hround
      refine ⟨hstuck, fun hexit => ?_⟩
      rcases hexit with hexit | hexit
      · exact absurd hexit hret
      · exact absurd hexit hleft

end Called

/-! ## Batches -/

section Batches

variable {α : Type} {k : Nat}

/-- Batches of one size that are followed by something are the first batches of any
    cut into such batches and a rest that is no larger. -/
theorem exists_append_of_flatten {xs ys : List (List α)} {l r : List α}
    (hxs : ∀ b ∈ xs, b.length = k) (hys : ∀ b ∈ ys, b.length = k) (hl : l ≠ [])
    (hr : r.length ≤ k) (h : xs.flatten ++ l = ys.flatten ++ r) : ∃ zs, ys = xs ++ zs := by
  induction xs generalizing ys with
  | nil => exact ⟨ys, rfl⟩
  | cons x xs ih =>
    have hx := hxs x List.mem_cons_self
    cases ys with
    | nil =>
      have hlen := congrArg List.length h
      have hpos := List.length_pos_iff.2 hl
      simp only [List.flatten_cons, List.flatten_nil, List.length_append, List.length_nil] at hlen
      omega
    | cons y ys =>
      have hy := hys y List.mem_cons_self
      rw [List.flatten_cons, List.flatten_cons, List.append_assoc, List.append_assoc] at h
      obtain ⟨rfl, hrest⟩ := List.append_inj h (hx.trans hy.symm)
      obtain ⟨zs, rfl⟩ := ih (fun b hb => hxs b (List.mem_cons_of_mem _ hb))
        (fun b hb => hys b (List.mem_cons_of_mem _ hb)) hrest
      exact ⟨zs, rfl⟩

theorem sizes_of_full {batches : List (List α)} (hk : 0 < k) (hfull : ∀ b ∈ batches, b.length = k) :
    ∀ b ∈ batches, b ≠ [] ∧ b.length ≤ k := by
  intro b hb
  have hlen := hfull b hb
  exact ⟨List.length_pos_iff.1 (by omega), Nat.le_of_eq hlen⟩

/-- Whatever is not empty can be cut into batches of one size and a last part that is
    no larger. -/
theorem exists_batches (hk : 0 < k) (l : List α) (hl : l ≠ []) :
    ∃ (batches : List (List α)) (left : List α), l = batches.flatten ++ left ∧ left ≠ [] ∧
      left.length ≤ k ∧ ∀ b ∈ batches, b.length = k := by
  induction hlen : l.length using Nat.strongRecOn generalizing l with
  | ind m ih =>
    by_cases hle : l.length ≤ k
    · exact ⟨[], l, rfl, hl, hle, by simp⟩
    · have hdrop : l.drop k ≠ [] := by
        intro hnil
        have := List.drop_eq_nil_iff.1 hnil
        omega
      obtain ⟨batches, left, hsplit, hne, hleft, hfull⟩ :=
        ih (l.drop k).length (by rw [List.length_drop]; omega) (l.drop k) hdrop rfl
      refine ⟨l.take k :: batches, left, ?_, hne, hleft, ?_⟩
      · rw [List.flatten_cons, List.append_assoc, ← hsplit, List.take_append_drop]
      · intro b hb
        rcases List.mem_cons.1 hb with rfl | hb
        · rw [List.length_take]
          omega
        · exact hfull b hb

end Batches

/-! ## Kernels that the driver gets through with -/

/-- The surroundings of the driver with another bound. -/
def DedupeWorld.within (w : DedupeWorld) (fuel : Nat) : DedupeWorld := { w with fuel := fuel }

/-- The calls for some batches, one after the other, each come to an ioctl that fails or
    that settles all their destinations. -/
def SettlesAll (kernel : Nat → KernelAnswer) (n len : Nat) (tgt : Extent) :
    List (List Extent) → Nat → Nat → Prop
  | [], _, _ => True
  | b :: batches, fsBlocksize, ioctls =>
    ∃ s, DedupeRun.Reaches kernel
        (.start (filledCtxt n tgt.eLoff len tgt.eFile b) fsBlocksize ioctls) s ∧
      s.Settles kernel ∧ SettlesAll kernel n len tgt batches s.fsBlocksize (s.ioctls + 1)

/-- The kernel settles every batch behind which there are later extents that open. -/
def GetsThrough (w : DedupeWorld) (len : Nat) (extents : List Extent) (fsBlocksize : Nat) : Prop :=
  ∀ tgt batches left, opening w extents = tgt :: (batches.flatten ++ left) → left ≠ [] →
    (∀ b ∈ batches, b.length = destsFor extents.length) →
    SettlesAll w.kernel extents.length len tgt batches fsBlocksize 0

section GetsThrough

variable {w : DedupeWorld} {n len : Nat} {tgt : Extent} {batches : List (List Extent)}

/-- More fuel does not change calls that end. -/
theorem callAll_mono {fuel fuel' : Nat} (hle : fuel ≤ fuel') {ctxts : List DedupeCtxt}
    {st st' : Nat × Nat} (h : callAll (w.within fuel) ctxts st = some st') :
    callAll (w.within fuel') ctxts st = some st' := by
  induction ctxts generalizing st with
  | nil => exact h
  | cons ctxt ctxts ih =>
    rw [callAll_cons] at h ⊢
    obtain ⟨s, hcall, hrest⟩ := Option.bind_eq_some_iff.1 h
    exact Option.bind_eq_some_iff.2 ⟨s, Loop.run_mono hle hcall, ih hrest⟩

/-- The calls for some batches end, with enough fuel, exactly if the kernel settles
    them. -/
theorem exists_callAll_iff (hn : 0 < n)
    (hbatches : ∀ b ∈ batches, b ≠ [] ∧ b.length ≤ destsFor n) (fsBlocksize ioctls : Nat) :
    (∃ fuel st, callAll (w.within fuel) (batches.map (filledCtxt n tgt.eLoff len tgt.eFile))
      (fsBlocksize, ioctls) = some st) ↔
      SettlesAll w.kernel n len tgt batches fsBlocksize ioctls := by
  induction batches generalizing fsBlocksize ioctls with
  | nil => exact ⟨fun _ => trivial, fun _ => ⟨0, _, rfl⟩⟩
  | cons b batches ih =>
    obtain ⟨hne, hroom⟩ := hbatches b List.mem_cons_self
    have hcall := @dedupeExtents_ends_iff_settles w.kernel n tgt.eLoff len tgt.eFile b fsBlocksize
      ioctls hn hne hroom
    have hlater := ih fun b hb => hbatches b (List.mem_cons_of_mem _ hb)
    rw [List.map_cons, SettlesAll]
    constructor
    · rintro ⟨fuel, st, h⟩
      rw [callAll_cons] at h
      obtain ⟨r, hrun, hrest⟩ := Option.bind_eq_some_iff.1 h
      obtain ⟨s, hreach, hsettles, hblock, hioctls⟩ := (hcall _ _).1 ⟨fuel, r, hrun, rfl, rfl⟩
      rw [hblock, hioctls] at hrest
      exact ⟨s, hreach, hsettles, (hlater _ _).1 ⟨fuel, st, hrest⟩⟩
    · rintro ⟨s, hreach, hsettles, hrest⟩
      obtain ⟨fuel, r, hrun, hblock, hioctls⟩ := (hcall _ _).2 ⟨s, hreach, hsettles, rfl, rfl⟩
      obtain ⟨fuel', st, hrest⟩ := (hlater _ _).2 hrest
      refine ⟨max fuel fuel', st, ?_⟩
      rw [callAll_cons]
      refine Option.bind_eq_some_iff.2 ⟨r, Loop.run_mono (Nat.le_max_left _ _) hrun, ?_⟩
      rw [hblock, hioctls]
      exact callAll_mono (Nat.le_max_right _ _) hrest

end GetsThrough

/-! ## Coverage -/

/-- The group is covered: whatever is done so far, the target is the first extent that
    opens, unless it is the last extent, and what was submitted has its file, its offset
    and the length of the group, at most 119 destinations, each destination once and
    never the target, and no check for room fails. In the end the destinations are the
    later extents that open. -/
structure Covers (w : DedupeWorld) (len : Nat) (extents : List Extent)
    (fsBlocksize kernBytes : Nat) : Prop where
  target : ∀ fuel,
    (dedupeExtentList (w.within fuel) len extents fsBlocksize kernBytes).2.tgtExtent =
      extents.dropLast.find? w.canOpen
  contexts : ∀ fuel, ∀ ctxt ∈
    (dedupeExtentList (w.within fuel) len extents fsBlocksize kernBytes).2.submitted,
    ∃ tgt, extents.dropLast.find? w.canOpen = some tgt ∧ ctxt.ioctlFile = tgt.eFile ∧
      ctxt.origFileOff = tgt.eLoff ∧ ctxt.origLen = len ∧ tgt ∉ ctxt.dests ∧
      ctxt.dests.length ≤ 119
  once : ∀ fuel, ((dedupeExtentList (w.within fuel) len extents fsBlocksize
    kernBytes).2.submitted.flatMap DedupeCtxt.dests).Nodup
  no_abort : ∀ fuel,
    (dedupeExtentList (w.within fuel) len extents fsBlocksize kernBytes).1 ≠ .aborted .addExtent ∧
    (dedupeExtentList (w.within fuel) len extents fsBlocksize kernBytes).1 ≠ .aborted .addRequest
  later : ∃ fuel, (dedupeExtentList (w.within fuel) len extents fsBlocksize
    kernBytes).2.submitted.flatMap DedupeCtxt.dests = (opening w extents).tail

section Covers

variable {w : DedupeWorld} {len : Nat} {extents : List Extent} {fsBlocksize kernBytes : Nat}

/-- On a group, the driver serves what it submits, or hangs in its last call. -/
theorem dedupeExtentList_called (w : DedupeWorld) (len : Nat) (extents : List Extent)
    (fsBlocksize kernBytes : Nat) :
    ((dedupeExtentList w len extents fsBlocksize kernBytes).1 = .stuck →
      (dedupeExtentList w len extents fsBlocksize kernBytes).2.Hangs w (fsBlocksize, 0)) ∧
    ((dedupeExtentList w len extents fsBlocksize kernBytes).1 = .returned ∨
        (dedupeExtentList w len extents fsBlocksize kernBytes).1 = .aborted .openFilesLeft →
      (dedupeExtentList w len extents fsBlocksize kernBytes).2.Called w (fsBlocksize, 0)) := by
  have hstart : (Driver.start fsBlocksize kernBytes).Called w (fsBlocksize, 0) := rfl
  exact driverLoop_called hstart extents

/-- The calls in front of the last one ended. -/
theorem callAll_dropLast (hn : 2 ≤ extents.length) (w : DedupeWorld)
    (len fsBlocksize kernBytes : Nat) :
    ∃ st, callAll w (dedupeExtentList w len extents fsBlocksize kernBytes).2.submitted.dropLast
      (fsBlocksize, 0) = some st := by
  obtain ⟨batches, left, -, -, hends⟩ := dedupeExtentList_post hn w len fsBlocksize kernBytes
  have hloop := dedupeExtentList_called w len extents fsBlocksize kernBytes
  generalize dedupeExtentList w len extents fsBlocksize kernBytes = r at hends hloop ⊢
  have hcalled : r.2.Called w (fsBlocksize, 0) →
      ∃ st, callAll w r.2.submitted.dropLast (fsBlocksize, 0) = some st := by
    intro h
    rcases List.eq_nil_or_concat r.2.submitted with hnil | ⟨ctxts, ctxt, hsub⟩
    · rw [hnil]
      exact ⟨_, rfl⟩
    · rw [Driver.Called, hsub, List.concat_eq_append, callAll_append] at h
      obtain ⟨st, hst, -⟩ := Option.bind_eq_some_iff.1 h
      rw [hsub, List.concat_eq_append, List.dropLast_concat]
      exact ⟨st, hst⟩
  rcases hends with hstuck | ⟨hret, -⟩ | ⟨hleft, -⟩
  · obtain ⟨ctxts, ctxt, st, hsub, hst, -⟩ := hloop.1 hstuck
    rw [hsub, List.dropLast_concat]
    exact ⟨st, hst⟩
  · exact hcalled (hloop.2 (.inl hret))
  · exact hcalled (hloop.2 (.inr hleft))

/-- The target and the destinations behind it. -/
theorem opening_of_tail (h : (opening w extents).tail ≠ []) :
    ∃ tgt, opening w extents = tgt :: (opening w extents).tail := by
  cases hopen : opening w extents with
  | nil =>
    rw [hopen] at h
    exact absurd rfl h
  | cons tgt rest => exact ⟨tgt, rfl⟩

/-- A driver that submitted all later extents that open got through with the batches in
    front of the last one. -/
theorem getsThrough_of_later (hn : 2 ≤ extents.length) {fuel : Nat}
    (hlater : (dedupeExtentList (w.within fuel) len extents fsBlocksize
      kernBytes).2.submitted.flatMap DedupeCtxt.dests = (opening w extents).tail) :
    GetsThrough w len extents fsBlocksize := by
  intro tgt batches left hopen hleft hfull
  have hk : 0 < destsFor extents.length := destsFor_pos hn
  obtain ⟨given, rest, hpost⟩ :=
    dedupeExtentList_post hn (w.within fuel) len fsBlocksize kernBytes
  obtain ⟨st, hcalls⟩ := callAll_dropLast hn (w.within fuel) len fsBlocksize kernBytes
  have hflat : given.flatten = batches.flatten ++ left := by
    rw [← hpost.submits.dests, hlater, hopen, List.tail_cons]
  rcases List.eq_nil_or_concat given with rfl | ⟨front, final, rfl⟩
  · rw [List.flatten_nil, eq_comm, List.append_eq_nil_iff] at hflat
    exact absurd hflat.2 hleft
  · rw [List.concat_eq_append] at hflat hpost
    have hfront := hpost.submits.full
    rw [List.dropLast_concat] at hfront
    rw [List.flatten_concat] at hflat
    obtain ⟨zs, rfl⟩ := exists_append_of_flatten hfull hfront hleft
      (hpost.submits.sizes final (by simp)).2 hflat.symm
    rw [hpost.submits.submitted tgt (by exact congrArg List.head? hopen), List.map_append,
      List.map_singleton, List.dropLast_concat, List.map_append, callAll_append] at hcalls
    obtain ⟨st', hbatches, -⟩ := Option.bind_eq_some_iff.1 hcalls
    exact (exists_callAll_iff (by omega) (sizes_of_full hk hfull) fsBlocksize 0).1
      ⟨fuel, st', hbatches⟩

/-- A driver whose calls for the batches in front of the last one end submits all later
    extents that open. -/
theorem later_of_getsThrough (hn : 2 ≤ extents.length) (hdistinct : extents.Nodup)
    (hfixed : ∀ k f, w.reopens k f = w.opens f)
    (h : GetsThrough w len extents fsBlocksize) :
    ∃ fuel, (dedupeExtentList (w.within fuel) len extents fsBlocksize
      kernBytes).2.submitted.flatMap DedupeCtxt.dests = (opening w extents).tail := by
  have hk : 0 < destsFor extents.length := destsFor_pos hn
  by_cases htail : (opening w extents).tail = []
  · refine ⟨0, ?_⟩
    obtain ⟨-, -, -, hstart, -⟩ :=
      dedupeExtentList_batches hn hdistinct (w.within 0) hfixed len fsBlocksize kernBytes rfl
    have hnil : (opening (w.within 0) extents).tail = [] := htail
    rw [hnil, List.prefix_nil] at hstart
    exact hstart.trans htail.symm
  · obtain ⟨tgt, hopen⟩ := opening_of_tail htail
    obtain ⟨batches, left, hsplit, hleft, hsmall, hfull⟩ := exists_batches hk _ htail
    rw [hsplit] at hopen
    have hsettles := h tgt batches left hopen hleft hfull
    obtain ⟨fuel, st, hcalls⟩ :=
      (exists_callAll_iff (by omega) (sizes_of_full hk hfull) fsBlocksize 0).2 hsettles
    refine ⟨fuel, ?_⟩
    obtain ⟨-, -, -, -, hreturns, -⟩ :=
      dedupeExtentList_batches hn hdistinct (w.within fuel) hfixed len fsBlocksize kernBytes rfl
    by_cases hstuck :
        (dedupeExtentList (w.within fuel) len extents fsBlocksize kernBytes).1 = .stuck
    · -- The call that does not end is for the last batch, as those in front of it end.
      obtain ⟨given, rest, hpost⟩ :=
        dedupeExtentList_post hn (w.within fuel) len fsBlocksize kernBytes
      have hgiven : (opening w extents).tail = given.flatten ++ rest := hpost.submits.split
      rw [hpost.submits.dests, hgiven]
      by_cases hrest : rest = []
      · rw [hrest, List.append_nil]
      · exfalso
        obtain ⟨zs, rfl⟩ := exists_append_of_flatten (hpost.submits.cut hrest) hfull hrest hsmall
          (hgiven.symm.trans hsplit)
        obtain ⟨ctxts, ctxt, st', hsub, hst', hnone⟩ :=
          (dedupeExtentList_called (w.within fuel) len extents fsBlocksize kernBytes).1 hstuck
        rw [hpost.submits.submitted tgt (by exact congrArg List.head? hopen)] at hsub
        rw [List.map_append, hsub, List.append_assoc, callAll_append, hst', Option.bind_some,
          List.singleton_append, callAll_cons, hnone] at hcalls
        cases hcalls
    · exact hreturns hstuck

/-- The driver covers a group exactly if the kernel gets it through with the batches. -/
theorem dedupeExtentList_covers_iff (hn : 2 ≤ extents.length) (hdistinct : extents.Nodup)
    (hfixed : ∀ k f, w.reopens k f = w.opens f) :
    Covers w len extents fsBlocksize kernBytes ↔ GetsThrough w len extents fsBlocksize := by
  constructor
  · intro h
    obtain ⟨fuel, hlater⟩ := h.later
    exact getsThrough_of_later hn hlater
  · intro h
    have hbatches := fun fuel =>
      dedupeExtentList_batches hn hdistinct (w.within fuel) hfixed len fsBlocksize kernBytes rfl
    refine ⟨fun fuel => (hbatches fuel).1, fun fuel ctxt hctxt => ?_,
      fun fuel => (hbatches fuel).2.2.1, fun fuel => (hbatches fuel).2.2.2.2.2,
      later_of_getsThrough hn hdistinct hfixed h⟩
    obtain ⟨tgt, htgt, hcontext⟩ := (hbatches fuel).2.1 ctxt hctxt
    exact ⟨tgt, (hbatches fuel).1.symm.trans htgt, hcontext⟩

end Covers

/-! ## Kernels that give nothing -/

/-- From an ioctl on, every destination gets status zero and zero bytes. -/
def GivesNothing (kernel : Nat → KernelAnswer) (k : Nat) : Prop :=
  ∀ i ≥ k, (kernel i).ret = 0 ∧ ∀ j, (kernel i).replies j = ⟨0, 0⟩

/-- A call that waits, outside of aligned mode, for the bytes of some destination. -/
structure DedupeRun.Starves (k elen : Nat) (s : DedupeRun) : Prop where
  ioctls : k ≤ s.ioctls
  unaligned : s.fsBlocksize = 0
  waits : (s.pc = .loopHead ∧ s.ctxt.queued ≠ []) ∨ s.pc = .ioctl
  short : ∀ r ∈ s.ctxt.queued ++ s.ctxt.inProgress, r.reqTotal < elen

section Starves

variable {ds : List Extent} {loff elen k : Nat} {kernel : Nat → KernelAnswer} {s : DedupeRun}

/-- An ioctl that gives nothing brings all its destinations back to the queue. -/
theorem DedupeRun.Starves.requeues (h : s.Sound ds loff elen)
    (hnothing : GivesNothing kernel k) (hs : s.Starves k elen) (hpc : s.pc = .ioctl) :
    s.Processes kernel ∧ (s.answered kernel).requeued s.fsBlocksize = s.ctxt.inProgress := by
  obtain ⟨hret, hreplies⟩ := hnothing s.ioctls hs.ioctls
  have horig : (s.answered kernel).origLen = elen := h.origLen
  have hgoes : ∀ r ∈ s.ctxt.inProgress, (s.answered kernel).same.GoesAround elen r := by
    intro r hr
    have hshort := hs.short r (List.mem_append_right _ hr)
    have hreply := @DedupeRun.Sound.reply_answered ds loff elen kernel s h r hr
    rw [hreplies] at hreply
    refine ⟨by rw [hreply], ?_⟩
    simp only [DedupeRange.served, DedupeReq.advance, hreply]
    exact Nat.lt_of_le_of_lt (Nat.mod_le _ _) hshort
  refine ⟨⟨hpc, hret, ?_⟩, ?_⟩
  · rintro ⟨hinval, -⟩
    obtain ⟨r, rest, hcons⟩ := List.exists_cons_of_ne_nil (h.submits hpc).some
    have hindex := h.inv.indices.2 r (hcons ▸ List.mem_cons_self)
    have hroom : s.ctxt.same.destCount ≤ s.ctxt.same.info.length := by
      rw [h.room]
      exact Nat.le_trans h.inv.dests h.inv.room
    rw [DedupeRun.answered, answered_infoAt (by omega) hroom, hreplies] at hinval
    cases hinval
  · rw [DedupeCtxt.requeued, if_neg fun hboth => hboth.1 hs.unaligned, horig]
    exact List.filter_eq_self.2 fun r hr => decide_eq_true (hgoes r hr)

/-- Behind an answer that leaves a destination in the queue a call waits for it. -/
theorem starves_of_requeued (h : s.Sound ds loff elen) (hproc : s.Processes kernel)
    (hioctls : k ≤ s.ioctls + 1) (hunaligned : s.fsBlocksize = 0)
    (hrequeued : (s.answered kernel).requeued s.fsBlocksize ≠ []) :
    (s.turn kernel).Starves k elen := by
  obtain ⟨hhead, hsize, hprocessed⟩ := h.turn_processes hproc
  have hcount : (s.turn kernel).ioctls = s.ioctls + 1 := by
    rw [DedupeRun.turn_of_processes hproc]
  have horig : (s.answered kernel).origLen = elen := h.origLen
  refine ⟨hcount ▸ hioctls, hsize.trans hunaligned, .inl ⟨hhead, ?_⟩, ?_⟩
  · rw [hprocessed.queued]
    exact fun hnil => hrequeued (List.map_eq_nil_iff.1 hnil)
  · rw [hprocessed.queued, hprocessed.inProgress, List.append_nil, DedupeCtxt.requeued,
      if_neg fun hboth => hboth.1 hunaligned, horig]
    intro r hr
    obtain ⟨r', hr', rfl⟩ := List.mem_map.1 hr
    have hgoes := (List.mem_filter.1 hr').2
    exact (of_decide_eq_true hgoes).2

/-- Such a call goes on waiting when it gets nothing, -/
theorem turn_starves (h : s.Sound ds loff elen) (hnothing : GivesNothing kernel k)
    (hs : s.Starves k elen) : (s.turn kernel).Starves k elen := by
  rcases hs.waits with ⟨hpc, hqueued⟩ | hpc
  · obtain ⟨numQueued, hfill⟩ := populateDedupeRequest_eq h.inv hpc
    rw [DedupeRun.turn_loopHead hpc hqueued hfill]
    refine ⟨hs.ioctls, hs.unaligned, .inr rfl, ?_⟩
    refine (forall_mem_numbered (P := fun r => r.reqTotal < elen) (fun _ _ => Iff.rfl) 0 _).2 ?_
    exact fun r hr => hs.short r (List.mem_append_left _ hr)
  · obtain ⟨hproc, hrequeued⟩ := hs.requeues h hnothing hpc
    refine starves_of_requeued h hproc (Nat.le_succ_of_le hs.ioctls) hs.unaligned ?_
    rw [hrequeued]
    exact (h.submits hpc).some

/-- and no ioctl settles its destinations. -/
theorem DedupeRun.Starves.not_settles (h : s.Sound ds loff elen)
    (hnothing : GivesNothing kernel k) (hs : s.Starves k elen) : ¬ s.Settles kernel := by
  rintro ⟨hpc, hfail | ⟨-, hnone⟩⟩
  · exact hfail (hnothing s.ioctls hs.ioctls).1
  · rw [(hs.requeues h hnothing hpc).2] at hnone
    exact (h.submits hpc).some hnone

/-- A call whose first answer leaves a destination in the queue, and that gets nothing
    from then on, never comes to an end. -/
theorem not_settles_of_starves {start : DedupeRun} (hstart : start.Sound ds loff elen)
    (hhead : start.pc = .loopHead) (hproc : (start.turn kernel).Processes kernel)
    (hunaligned : (start.turn kernel).fsBlocksize = 0)
    (hrequeued :
      ((start.turn kernel).answered kernel).requeued (start.turn kernel).fsBlocksize ≠ [])
    (hnothing : GivesNothing kernel ((start.turn kernel).ioctls + 1)) :
    ∀ s, DedupeRun.Reaches kernel start s → ¬ s.Settles kernel := by
  rintro s ⟨n, rfl⟩ hsettles
  have hvisible := DedupeRun.visible_of_ioctl hsettles.1
  have hsound : (start.turn kernel).Sound ds loff elen := turn_sound hstart
  have hcases := (turn_accelerates kernel (addedIdents ds)).invariant
    (P := fun s => s = start ∨ s = start.turn kernel ∨
      s.Starves ((start.turn kernel).ioctls + 1) elen)
    hstart.inv hstart.visible (.inl rfl) (fun m hm hs => by
      rcases hs with hs | hs | hs
      · exact .inr (.inl (by rw [hs]))
      · rw [hs]
        exact .inr (.inr (starves_of_requeued hsound hproc (Nat.le_refl _) hunaligned hrequeued))
      · exact .inr (.inr (turn_starves (reaches_sound hstart hm) hnothing hs))) hvisible
  rcases hcases with heq | heq | hs
  · rw [heq] at hsettles
    exact absurd (hsettles.1.symm.trans hhead) (by decide)
  · rw [heq] at hsettles
    rcases hsettles.2 with hfail | ⟨-, hnone⟩
    · exact hfail hproc.ret
    · exact hrequeued hnone
  · exact hs.not_settles (reaches_sound hstart hvisible) hnothing hsettles

end Starves

/-! ## Two runs on 121 extents -/

/-- The destinations that fill the first context. -/
def firstBatch : List Extent := (List.range 119).map fun i => ⟨i + 1, 0⟩

/-- All files open. -/
def openWorld (kernel : Nat → KernelAnswer) : DedupeWorld where
  opens := fun _ => none
  reopens := fun _ _ => none
  kernel := kernel
  fuel := 0

theorem opening_openWorld (kernel : Nat → KernelAnswer) :
    opening (openWorld kernel) trailingGroup = ⟨0, 0⟩ :: ([firstBatch].flatten ++ [⟨120, 0⟩]) := by
  change trailingGroup.filter (fun _ => true) = _
  rw [List.filter_true]
  decide +kernel

theorem trailingGroup_nodup : trailingGroup.Nodup := by
  refine List.nodup_range.map fun i j hij => ?_
  exact congrArg Extent.eFile hij

/-- The call of `dedupe_extents` for them. -/
def firstCall (len : Nat) : DedupeRun :=
  .start (filledCtxt trailingGroup.length 0 len 0 firstBatch) 0 0

theorem firstCall_sound {len : Nat} (hlen : len < 2 ^ 64) :
    (firstCall len).Sound firstBatch 0 len :=
  start_sound (by decide +kernel) (by decide +kernel) (by decide +kernel) (by decide) hlen 0 0

/-- A kernel that dedupes every request at once gets the driver through with its one
    full batch. -/
theorem dedupeExtentList_covers_openWorld :
    Covers (openWorld pageKernel) 4096 trailingGroup 0 0 := by
  refine (dedupeExtentList_covers_iff (by decide) trailingGroup_nodup (fun _ _ => rfl)).2 ?_
  intro tgt batches left hopen hleft hfull
  rw [opening_openWorld] at hopen
  obtain ⟨rfl, hsplit⟩ := List.cons_eq_cons.1 hopen
  have hfirst : ∀ b ∈ [firstBatch], b.length = destsFor trailingGroup.length := by decide +kernel
  obtain ⟨zs, hzs⟩ := exists_append_of_flatten hfull hfirst hleft (by decide +kernel) hsplit.symm
  cases batches with
  | nil => trivial
  | cons b batches =>
    obtain ⟨rfl, hnil⟩ := List.cons_eq_cons.1 hzs
    obtain ⟨rfl, -⟩ := List.append_eq_nil_iff.1 hnil.symm
    have hstart := @firstCall_sound 4096 (by decide)
    refine ⟨_, reaches_turn ⟨0, rfl⟩ hstart, ?_, trivial⟩
    decide +kernel

/-- A kernel that serves the first destination faster than the others. After that the
    request has no length, and it gives nothing. -/
def stallingKernel : Nat → KernelAnswer
  | 0 => ⟨0, fun i => if i = 0 then ⟨8192, 0⟩ else ⟨4096, 0⟩, 4096⟩
  | _ + 1 => ⟨0, fun _ => ⟨0, 0⟩, 4096⟩

/-- Its first answer leaves all destinations but the first in the queue. -/
theorem stallingKernel_firstCall :
    ((firstCall 8192).turn stallingKernel).pc = .ioctl ∧
      (stallingKernel ((firstCall 8192).turn stallingKernel).ioctls).ret = 0 ∧
      ¬ ((firstCall 8192).turn stallingKernel).Retries stallingKernel ∧
      ((firstCall 8192).turn stallingKernel).ioctls = 0 ∧
      ((firstCall 8192).turn stallingKernel).fsBlocksize = 0 ∧
      (((firstCall 8192).turn stallingKernel).answered stallingKernel).requeued 0 ≠ [] := by
  decide +kernel

/-- The last destination is never submitted, because the call for the others does not
    end. -/
theorem not_covers_stallingKernel :
    2 ≤ trailingGroup.length ∧ trailingGroup.Nodup ∧
      (∀ k f, (openWorld stallingKernel).reopens k f = (openWorld stallingKernel).opens f) ∧
      ¬ Covers (openWorld stallingKernel) 8192 trailingGroup 0 0 := by
  refine ⟨by decide, trailingGroup_nodup, fun _ _ => rfl, fun hcovers => ?_⟩
  obtain ⟨fuel, hlater⟩ := hcovers.later
  have hthrough := getsThrough_of_later (by decide) hlater
  obtain ⟨s, hreach, hsettles, -⟩ := hthrough _ _ _ (opening_openWorld stallingKernel) (by decide)
    (by decide +kernel)
  obtain ⟨hpc, hret, haligned, hioctls, hunaligned, hrequeued⟩ := stallingKernel_firstCall
  refine not_settles_of_starves (firstCall_sound (by decide)) rfl ⟨hpc, hret, haligned⟩ hunaligned
    ?_ ?_ s hreach hsettles
  · rw [hunaligned]
    exact hrequeued
  · rw [hioctls]
    intro i hi
    obtain ⟨i, rfl⟩ : ∃ j, i = j + 1 := ⟨i - 1, by omega⟩
    exact ⟨rfl, fun _ => rfl⟩

end Duperemove
