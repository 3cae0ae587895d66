-- SUMMARY: `extent_dedupe_worker`: what it does to the hashfile after a pass, and whose extent rows it drops.
import Duperemove.Dbfile.Statements
import Duperemove.Dedupe.Sharing

/-!
# The worker

After a pass `extent_dedupe_worker` brings the hashfile up to date and frees the
group. When whole files were deduped it drops the extent rows of every file of
the group. The outcome of the single requests is gone by then, so it also drops
those of files that did not take part in the dedupe.
-/

namespace Duperemove

namespace Tables

/-- `DELETE_FILE` -/
def deleteFile (t : Tables) (filename : String) : Tables :=
  t.deleteFiles fun f => decide (f.filename = filename)

/-- `UPDATE_EXTENT_POFF` -/
def updateExtentPoff (t : Tables) (fileid loff poff : Nat) : Tables :=
  { t with extents := t.extents.map fun e =>
    if e.fileid = fileid ∧ e.loff = loff then { e with poff := poff } else e }

end Tables

/-! ## The function -/

/-- How the worker ends: with the tables, the tree and the last state of the driver,
    after `clean_deduped` freed the group, or together with the process. -/
inductive WorkerExit where
  | returned (t : Tables) (res : ResultsTree) (d : Driver)
  | cleaned (t : Tables) (res : ResultsTree)
  | stopped (exit : DriverExit)
  | broken

/-- The files that were gone when the driver wanted to open them. -/
def removeGone (dext : DupeExtents) (t : Tables) (gone : List FileId) : Tables :=
  gone.foldl (fun t file =>
    match dext.deExtents.find? fun e => e.eFile.addr = file with
    | some e => t.deleteFile e.eFile.filename
    | none => t) t

/-- The loop over the group. `scan` is `fiemap_scan_extent`: the physical offset of
    an extent, or `none` for an error. -/
def updateHashfile (wholeFileDedup : Bool) (scan : ResultExtent → Option Nat) (t : Tables)
    (extents : List ResultExtent) : Tables :=
  extents.foldl (fun t e =>
    if wholeFileDedup then t.removeExtentHashes e.eFile.fileid
    else
      match scan e with
      | some poff => t.updateExtentPoff e.eFile.fileid e.eLoff poff
      | none => t) t

/-- `extent_dedupe_worker` on the group `p`. -/
def extentDedupeWorker (w : DedupeWorld) (wholeFileDedup : Bool)
    (scan : ResultExtent → Option Nat) (t : Tables) (res : ResultsTree) (p : Nat × DigestBytes)
    (fsBlocksize kernBytes : Nat) : WorkerExit :=
  match dedupeGroup w res p fsBlocksize kernBytes with
  | .cleaned res => .cleaned t res
  | .broken => .broken
  | .ran exit d res =>
    if exit ≠ .returned then .stopped exit
    else
      match res.root[p]? with
      | none => .broken
      | some dext =>
        let t := updateHashfile wholeFileDedup scan (removeGone dext t d.removed) dext.deExtents
        if dext.deExtents = [] then .returned t res d
        else
          match res.dupeExtentsFree p with
          | none => .broken
          | some res => .returned t res d

/-! ## Whole files -/

/-- A group as `dbfile_load_same_files` builds it: whole files, without a physical
    offset. -/
def DupeExtents.WholeFiles (g : DupeExtents) : Prop :=
  ∀ e ∈ g.deExtents, e.eLoff = 0 ∧ e.ePoff = 0

instance (g : DupeExtents) : Decidable g.WholeFiles :=
  inferInstanceAs (Decidable (∀ e ∈ g.deExtents, _))

/-- A file took part in a dedupe: the kernel deduped at least a byte of it, or, when it
    is the source, of another file. -/
def Driver.TookPart (d : Driver) (file : FileId) : Prop :=
  ∃ ctxt ∈ d.finished, ∃ r ∈ ctxt.requests,
    0 < r.reqTotal ∧ (r.reqFile = file ∨ ctxt.ioctlFile = file)

/-- The bytes that the kernel deduped for each destination, none for an extent that it
    was not asked for. -/
structure Driver.KernelBytes (d : Driver) (bytes : Extent → Nat) : Prop where
  asked : ∀ ctxt ∈ d.finished, ∀ r ∈ ctxt.requests, bytes r.dest = r.reqTotal
  unasked : ∀ e, (∀ ctxt ∈ d.finished, ∀ r ∈ ctxt.requests, r.dest ≠ e) → bytes e = 0

/-- A file that the pass dedupes: it opens, and the kernel dedupes a byte of it, or of
    any other file when it is the first one that opens, which is the target. -/
def DupeExtents.Deduped (g : DupeExtents) (w : DedupeWorld) (bytes : Extent → Nat)
    (e : ResultExtent) : Prop :=
  w.opens e.eFile.addr = none ∧
    (0 < bytes e.place ∨
      (g.deExtents.find? (fun x => w.opens x.eFile.addr = none) = some e ∧
        ∃ e' ∈ g.deExtents, 0 < bytes e'.place))

section Worker

variable {w : DedupeWorld} {scan : ResultExtent → Option Nat} {t t' : Tables}
variable {res res' : ResultsTree} {p : Nat × DigestBytes} {g : DupeExtents} {d : Driver}
variable {fsBlocksize kernBytes : Nat} {bytes : Extent → Nat}

/-- The loop drops the extent rows of all files of the group. -/
theorem mem_updateHashfile {extents : List ResultExtent} {x : ExtentRow} :
    x ∈ (updateHashfile true scan t extents).extents ↔
      x ∈ t.extents ∧ ∀ e ∈ extents, e.eFile.fileid ≠ x.fileid := by
  induction extents generalizing t with
  | nil => simp [updateHashfile]
  | cons e extents ih =>
    have hstep : updateHashfile true scan t (e :: extents) =
        updateHashfile true scan (t.removeExtentHashes e.eFile.fileid) extents := rfl
    rw [hstep, ih, List.forall_mem_cons]
    simp only [Tables.removeExtentHashes, List.mem_filter, decide_eq_true_eq, and_assoc, ne_comm]

/-- Nothing of a group of whole files counts as deduped, so it stays as it is. -/
theorem cleanDeduped_wholeFiles (hg : res.root[p]? = some g) (hn : 2 ≤ g.deNumDupes)
    (hwhole : g.WholeFiles) :
    ∃ res' g', cleanDeduped res p = .returned res' ∧ res'.root[p]? = some g' ∧
      g'.deExtents = g.deExtents := by
  rw [g.numDupes_eq] at hn
  have hno : ∀ x ∈ g.deExtents, ¬ g.Repeats x := fun x hx h => h.1.1 (hwhole x hx).2
  have hsome : g.deExtents ≠ [] := List.length_pos_iff.1 (by omega)
  have hend := cleanDeduped_spec hg hsome
  generalize cleanDeduped res p = exit at hend
  have hnodup : g.deExtents.Nodup := List.Nodup.of_map _ g.keys_nodup
  cases hend with
  | @freed _ first _ hrepeats _ =>
    have hone : ∀ x ∈ g.deExtents, x = first := by
      intro x hx
      by_contra hne
      exact hno x hx (hrepeats x hx hne)
    have hle := (List.subperm_of_subset hnodup
      (fun x hx => List.mem_singleton.2 (hone x hx) : g.deExtents ⊆ [first])).length_le
    rw [List.length_singleton] at hle
    omega
  | @returned res' g' hremains hdropped _ =>
    refine ⟨res', g', rfl, hremains.here, ?_⟩
    refine hremains.sublist.eq_of_length_le ?_
    refine (List.subperm_of_subset hnodup fun x hx => ?_).length_le
    by_contra hgone
    exact hno x hx (hdropped x hx hgone)

/-- A worker that returns on a group of whole files ran the driver over all of it, and
    then removed the files that were gone and dropped the extent rows of all its files. -/
theorem extentDedupeWorker_returned (hg : res.root[p]? = some g) (hn : 2 ≤ g.deNumDupes)
    (hwhole : g.WholeFiles)
    (hrun : extentDedupeWorker w true scan t res p fsBlocksize kernBytes = .returned t' res' d) :
    dedupeExtentList w g.deLen (g.deExtents.map ResultExtent.place) fsBlocksize kernBytes =
        (.returned, d) ∧
      t' = updateHashfile true scan (removeGone g t d.removed) g.deExtents := by
  obtain ⟨res₁, g₁, hclean, hg₁, hsame⟩ := cleanDeduped_wholeFiles hg hn hwhole
  have hlen : g₁.deLen = g.deLen := by
    have hkey := (res.keyed p g hg).trans (res₁.keyed p g₁ hg₁).symm
    exact (Prod.mk.inj hkey).1.symm
  have hgone : ∀ gone, removeGone g₁ t gone = removeGone g t gone := by
    intro gone
    rw [removeGone, removeGone, hsame]
  simp only [extentDedupeWorker, dedupeGroup, hclean, hg₁, hsame, hlen] at hrun
  cases hlist : dedupeExtentList w g.deLen (g.deExtents.map ResultExtent.place) fsBlocksize
      kernBytes with
  | mk exit d₁ =>
    simp only [hlist, hgone] at hrun
    split at hrun
    · cases hrun
    · rename_i hexit
      rw [ne_eq, not_not] at hexit
      subst hexit
      split at hrun
      · cases hrun
        exact ⟨rfl, rfl⟩
      · split at hrun
        · cases hrun
        · cases hrun
          exact ⟨rfl, rfl⟩

/-- The target of a pass is the first extent of the list whose file opens. -/
theorem head_opening_iff {e : ResultExtent} (he : e ∈ g.deExtents) :
    (opening w (g.deExtents.map ResultExtent.place)).head? = some e.place ↔
      g.deExtents.find? (fun x => w.opens x.eFile.addr = none) = some e := by
  have hpred : w.canOpen ∘ ResultExtent.place =
      fun x => decide (w.opens x.eFile.addr = none) := by
    funext x
    rw [Bool.eq_iff_iff, decide_eq_true_eq]
    exact Option.isNone_iff_eq_none
  rw [opening, List.head?_filter, List.find?_map, hpred, Option.map_eq_some_iff]
  constructor
  · rintro ⟨x, hfind, hx⟩
    have hx' := List.mem_of_find?_eq_some hfind
    have heq := List.inj_on_of_nodup_map g.keys_nodup hx' he (ResultExtent.place_eq_iff.1 hx)
    exact heq ▸ hfind
  · exact fun hfind => ⟨e, hfind, rfl⟩

/-- The files of a group that took part, from the inputs of the pass. -/
theorem tookPart_iff {len : Nat} (hn : 2 ≤ g.deNumDupes) (hwhole : g.WholeFiles)
    (hbytes : d.KernelBytes bytes)
    (hlist : dedupeExtentList w len (g.deExtents.map ResultExtent.place) fsBlocksize kernBytes =
      (.returned, d)) {e : ResultExtent} (he : e ∈ g.deExtents) :
    d.TookPart e.eFile.addr ↔ g.Deduped w bytes e := by
  have hlen : 2 ≤ (g.deExtents.map ResultExtent.place).length := by
    rw [List.length_map, ← g.numDupes_eq]
    exact hn
  have hloff : ∀ x ∈ g.deExtents.map ResultExtent.place, x.eLoff = 0 := by
    intro x hx
    obtain ⟨y, hy, rfl⟩ := List.mem_map.1 hx
    exact (hwhole y hy).1
  obtain ⟨hfins, -⟩ := dedupeExtentList_outcome hlen
    (fun x hx => by rw [hloff x hx]; exact Nat.two_pow_pos 64) fsBlocksize kernBytes hlist
    (by decide)
  -- A range of the group in the file of `e` is the one of `e`, and it opens if it was asked for.
  have hplace : ∀ x ∈ opening w (g.deExtents.map ResultExtent.place), x.eFile = e.eFile.addr →
      x = e.place ∧ w.opens e.eFile.addr = none := by
    intro x hx hfile
    obtain ⟨hin, hopen⟩ := List.mem_filter.1 hx
    rw [DedupeWorld.canOpen, Option.isNone_iff_eq_none, hfile] at hopen
    have hx0 := hloff x hin
    have he0 := (hwhole e he).1
    refine ⟨?_, hopen⟩
    cases x
    simp only at hfile hx0
    rw [ResultExtent.place, hfile, hx0, he0]
  constructor
  · rintro ⟨ctxt, hctxt, r, hr, hpos, hfile⟩
    obtain ⟨hsource, -, hserves⟩ := hfins ctxt hctxt
    have hdest := List.mem_of_mem_tail (hserves r hr)
    rw [← hbytes.asked ctxt hctxt r hr] at hpos
    rcases hfile with hfile | hfile
    · obtain ⟨hplace, hopen⟩ := hplace r.dest hdest hfile
      exact ⟨hopen, .inl (hplace ▸ hpos)⟩
    · obtain ⟨hplace, hopen⟩ := hplace ctxt.source (List.mem_of_mem_head? hsource) hfile
      rw [hplace] at hsource
      obtain ⟨e', he', hplace'⟩ := List.mem_map.1 (List.mem_filter.1 hdest).1
      exact ⟨hopen, .inr ⟨(head_opening_iff he).1 hsource, e', he', hplace' ▸ hpos⟩⟩
  · rintro ⟨-, hpos⟩
    -- The kernel was asked for every range that has bytes.
    have hasked : ∀ x, 0 < bytes x → ∃ ctxt ∈ d.finished, ∃ r ∈ ctxt.requests,
        0 < r.reqTotal ∧ r.dest = x := by
      intro x hx
      by_contra hno
      refine Nat.ne_of_gt hx (hbytes.unasked x fun ctxt hctxt r hr hdest => hno ?_)
      refine ⟨ctxt, hctxt, r, hr, ?_, hdest⟩
      rw [← hbytes.asked ctxt hctxt r hr, hdest]
      exact hx
    rcases hpos with hpos | ⟨hfirst, e', -, hpos⟩
    · obtain ⟨ctxt, hctxt, r, hr, htotal, hdest⟩ := hasked _ hpos
      exact ⟨ctxt, hctxt, r, hr, htotal, .inl (congrArg Extent.eFile hdest)⟩
    · obtain ⟨ctxt, hctxt, r, hr, htotal, -⟩ := hasked _ hpos
      have hsource := (hfins ctxt hctxt).1
      rw [(head_opening_iff he).2 hfirst] at hsource
      have hfile := congrArg Extent.eFile (Option.some.inj hsource)
      exact ⟨ctxt, hctxt, r, hr, htotal, .inr hfile.symm⟩

/-- A worker that returns on a group of whole files, with one record for each file, none
    of which is gone. Extent rows go away only for files that took part in a dedupe
    exactly when all files of the group that have extent rows are deduped: the rows of
    all others are dropped as well. -/
theorem extentDedupeWorker_keeps_iff (hg : res.root[p]? = some g) (hn : 2 ≤ g.deNumDupes)
    (hwhole : g.WholeFiles)
    (hrecords : ∀ e ∈ g.deExtents, ∀ e' ∈ g.deExtents,
      e.eFile.fileid = e'.eFile.fileid → e.eFile = e'.eFile)
    (hopens : ∀ f, w.opens f ≠ some enoent)
    (hrun : extentDedupeWorker w true scan t res p fsBlocksize kernBytes = .returned t' res' d)
    (hbytes : d.KernelBytes bytes) :
    (∀ x ∈ t.extents, x ∉ t'.extents →
        ∃ e ∈ g.deExtents, e.eFile.fileid = x.fileid ∧ d.TookPart e.eFile.addr) ↔
      ∀ e ∈ g.deExtents, (∃ x ∈ t.extents, x.fileid = e.eFile.fileid) →
        g.Deduped w bytes e := by
  obtain ⟨hlist, hend⟩ := extentDedupeWorker_returned hg hn hwhole hrun
  have hnone : d.removed = [] := dedupeExtentList_removed hopens hlist (by decide)
  rw [hnone] at hend
  obtain rfl : t' = updateHashfile true scan t g.deExtents := hend
  constructor
  · rintro hkeeps e he ⟨x, hx, hid⟩
    have hgone : x ∉ (updateHashfile true scan t g.deExtents).extents := by
      intro hin
      exact (mem_updateHashfile.1 hin).2 e he hid.symm
    obtain ⟨e', he', hid', htook⟩ := hkeeps x hx hgone
    rw [hrecords e' he' e he (hid'.trans hid)] at htook
    exact (tookPart_iff hn hwhole hbytes hlist he).1 htook
  · intro hall x hx hgone
    rw [mem_updateHashfile, not_and] at hgone
    obtain ⟨e, he, hid⟩ : ∃ e ∈ g.deExtents, e.eFile.fileid = x.fileid := by
      by_contra hno
      exact hgone hx fun e he hid => hno ⟨e, he, hid⟩
    refine ⟨e, he, hid, ?_⟩
    exact (tookPart_iff hn hwhole hbytes hlist he).2 (hall e he ⟨x, hx, hid.symm⟩)

end Worker

/-! ## A file that does not open -/

def eacces : Nat := 13

/-- Two files with one extent row each. -/
def twoFiles : Tables where
  files := [⟨1, "a", 1, 0, 4096, 0, 0, some pageKey.2, some 0⟩,
    ⟨2, "b", 2, 0, 4096, 0, 0, some pageKey.2, some 0⟩]
  extents := [⟨pageKey.2, 1, 0, 8192, 4096⟩, ⟨pageKey.2, 2, 0, 16384, 4096⟩]
  blocks := []

/-- The second file may not be opened. -/
def lockedWorld : DedupeWorld where
  opens := fun f => if f = 1 then some eacces else none
  reopens := fun _ f => if f = 1 then some eacces else none
  kernel := pageKernel
  fuel := 100

def WorkerExit.outcome : WorkerExit → Option (Tables × Driver)
  | .returned t _ d => some (t, d)
  | _ => none

theorem WorkerExit.eq_of_outcome {exit : WorkerExit} {t : Tables} {d : Driver}
    (h : exit.outcome = some (t, d)) : ∃ res, exit = .returned t res d := by
  cases exit with
  | returned t' res d' =>
    cases h
    exact ⟨res, rfl⟩
  | cleaned _ _ => cases h
  | stopped _ => cases h
  | broken => cases h

/-- Nothing is deduped, and the extent rows of both files are dropped. -/
theorem extentDedupeWorker_keeps_locked :
    ∃ g t' res' d, (pagesAt [0, 0]).root[pageKey]? = some g ∧ g.WholeFiles ∧
      extentDedupeWorker lockedWorld true (fun _ => none) twoFiles (pagesAt [0, 0]) pageKey 0 0 =
        .returned t' res' d ∧
      ∃ x ∈ twoFiles.extents, x ∉ t'.extents ∧
        ¬ ∃ e ∈ g.deExtents, e.eFile.fileid = x.fileid ∧ d.TookPart e.eFile.addr := by
  have hgroup : (pagesAt [0, 0]).root[pageKey]?.map (fun g => decide g.WholeFiles) =
      some true := by
    decide +kernel
  have hworker : (extentDedupeWorker lockedWorld true (fun _ => none) twoFiles (pagesAt [0, 0])
      pageKey 0 0).outcome.map (fun r => (r.1.extents, r.2.finished)) = some ([], []) := by
    decide +kernel
  obtain ⟨g, hg, hwhole⟩ := Option.map_eq_some_iff.1 hgroup
  obtain ⟨⟨t', d⟩, hout, hlists⟩ := Option.map_eq_some_iff.1 hworker
  obtain ⟨res', hrun⟩ := WorkerExit.eq_of_outcome hout
  obtain ⟨hrows, hnone⟩ := Prod.mk.inj hlists
  refine ⟨g, t', res', d, hg, of_decide_eq_true hwhole, hrun, _, List.mem_cons_self, ?_, ?_⟩
  · simp only at hrows
    rw [hrows]
    exact List.not_mem_nil
  · rintro ⟨e, -, -, ctxt, hctxt, -⟩
    simp only at hnone
    rw [hnone] at hctxt
    cases hctxt

/-- The same files when both open: the kernel dedupes the second one. -/
theorem extentDedupeWorker_keeps_both :
    ∃ g t' res' d, (pagesAt [0, 0]).root[pageKey]? = some g ∧
      extentDedupeWorker pageWorld true (fun _ => none) twoFiles (pagesAt [0, 0]) pageKey 0 0 =
        .returned t' res' d ∧
      ∀ x ∈ twoFiles.extents, x ∉ t'.extents →
        ∃ e ∈ g.deExtents, e.eFile.fileid = x.fileid ∧ d.TookPart e.eFile.addr := by
  let bytes : Extent → Nat := fun e => if e = ⟨1, 0⟩ then 4096 else 0
  have hgroup : (pagesAt [0, 0]).root[pageKey]?.map (fun g => decide (2 ≤ g.deNumDupes ∧
      g.WholeFiles ∧ (∀ e ∈ g.deExtents, ∀ e' ∈ g.deExtents,
        e.eFile.fileid = e'.eFile.fileid → e.eFile = e'.eFile) ∧
      ∀ e ∈ g.deExtents, 0 < bytes e.place ∨
        g.deExtents.find? (fun x => pageWorld.opens x.eFile.addr = none) = some e ∧
          ∃ e' ∈ g.deExtents, 0 < bytes e'.place)) = some true := by
    decide +kernel
  have hworker : (extentDedupeWorker pageWorld true (fun _ => none) twoFiles (pagesAt [0, 0])
      pageKey 0 0).outcome.map (fun r => decide
        ((∀ ctxt ∈ r.2.finished, ∀ q ∈ ctxt.requests, bytes q.dest = q.reqTotal) ∧
          ∃ ctxt ∈ r.2.finished, ∃ q ∈ ctxt.requests, q.dest = ⟨1, 0⟩)) = some true := by
    decide +kernel
  obtain ⟨g, hg, hall⟩ := Option.map_eq_some_iff.1 hgroup
  obtain ⟨htwo, hwhole, hrecords, hdeduped⟩ := of_decide_eq_true hall
  obtain ⟨⟨t', d⟩, hout, hkernel⟩ := Option.map_eq_some_iff.1 hworker
  obtain ⟨hasked, ctxt, hctxt, q, hq, hdest⟩ := of_decide_eq_true hkernel
  obtain ⟨res', hrun⟩ := WorkerExit.eq_of_outcome hout
  have hbytes : d.KernelBytes bytes := by
    refine ⟨hasked, fun e hunasked => if_neg ?_⟩
    rintro rfl
    exact hunasked ctxt hctxt q hq hdest
  refine ⟨g, t', res', d, hg, hrun, ?_⟩
  refine (extentDedupeWorker_keeps_iff hg htwo hwhole hrecords (fun _ h => by cases h) hrun
    hbytes).2 ?_
  exact fun e he _ => ⟨rfl, hdeduped e he⟩

end Duperemove
