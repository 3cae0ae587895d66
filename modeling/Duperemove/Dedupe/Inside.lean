-- SUMMARY: Which requests for a loaded group end behind a file: those for an extent whose length was rounded up, unless it is dropped.
import Duperemove.Dbfile.Groups
import Duperemove.Dedupe.CleanNodes
import Duperemove.ScanRun.Robust
import Duperemove.ScanRun.Stored

/-!
# Requests inside the files

The length of an extent goes from fiemap through the hashfile and the key of its group
into the requests, and nothing cuts it at the end of the file. So a request lies inside
its files unless it is for the last extent of a file, rounded up to whole blocks. Such
an extent does no harm when it shares its digest and length with no other one, or when
`clean_deduped` drops it in any order of the files.
-/

namespace Duperemove

-- ---------------------------------------------------------------------------
-- Contexts of a pass
-- ---------------------------------------------------------------------------

section Driver

variable {w : DedupeWorld} {len : Nat} {d : Driver}

/-- A driver that hangs in `dedupe_extents` had submitted a context. -/
def DriverRound.HangsSubmitted (r : DriverRound) : Prop :=
  ∀ d, r = .stop .stuck d → d.submitted ≠ []

theorem closeFiles_hangs (w : DedupeWorld) (last : Bool) (d : Driver) :
    (closeFiles w last d).HangsSubmitted := by
  unfold closeFiles
  simp only
  split
  · rintro _ ⟨⟩
  · split
    · rintro _ ⟨⟩
    · split <;> rintro _ ⟨⟩

theorem runDedupe_hangs (w : DedupeWorld) (last : Bool) (d : Driver) (ctxt : DedupeCtxt) :
    (runDedupe w last d ctxt).HangsSubmitted := by
  unfold runDedupe
  split
  · exact closeFiles_hangs w last d
  · simp only
    split
    · rintro _ ⟨⟩
      exact List.append_ne_nil_of_right_ne_nil _ (List.cons_ne_nil ctxt [])
    · split
      · split
        · exact closeFiles_hangs w last _
        · rintro _ ⟨⟩
      · split
        · rintro _ ⟨⟩
        · exact closeFiles_hangs w last _

theorem queueExtent_hangs (w : DedupeWorld) (last : Bool) (d : Driver) (ctxt : DedupeCtxt)
    (e : Extent) : (queueExtent w last d ctxt e).HangsSubmitted := by
  unfold queueExtent
  split
  · rintro _ ⟨⟩
  · simp only
    split
    · rintro _ ⟨⟩
    · exact runDedupe_hangs w last _ _

theorem dedupeRound_hangs (w : DedupeWorld) (n len : Nat) (last : Bool) (e : Extent) (d : Driver) :
    (dedupeRound w n len last e d).HangsSubmitted := by
  cases hcall : filerecOpenOnce w.opens e.eFile d.openFiles with
  | mk errno files =>
    cases errno with
    | some errno =>
      rw [dedupeRound_unopened hcall]
      split
      · split
        · exact runDedupe_hangs w last _ _
        · rintro _ ⟨⟩
      · rintro _ ⟨⟩
    | none =>
      simp only [dedupeRound, hcall]
      split
      · exact queueExtent_hangs w last _ _ e
      · exact queueExtent_hangs w last _ _ e
      · split
        · exact closeFiles_hangs w last _
        · rintro _ ⟨⟩

theorem driverLoop_hangs (w : DedupeWorld) (n len : Nat) (extents : List Extent) (d : Driver)
    (hstuck : (driverLoop w n len extents d).1 = .stuck) :
    (driverLoop w n len extents d).2.submitted ≠ [] := by
  have hend : ∀ d, (driverEnd d).1 ≠ .stuck := by
    intro d
    unfold driverEnd
    split
    · rintro ⟨⟩
    · split <;> rintro ⟨⟩
  induction extents generalizing d with
  | nil => exact absurd hstuck (hend d)
  | cons e rest ih =>
    have hround := dedupeRound_hangs w n len rest.isEmpty e d
    simp only [driverLoop] at hstuck ⊢
    cases hcase : dedupeRound w n len rest.isEmpty e d with
    | next d' =>
      rw [hcase] at hstuck
      exact ih d' hstuck
    | leave d' =>
      rw [hcase] at hstuck
      exact absurd hstuck (hend d')
    | stop exit d' =>
      rw [hcase] at hstuck
      simp only at hstuck
      subst hstuck
      exact hround d' hcase

/-- When all files open, and open again, a context is submitted. -/
theorem dedupeExtentList_submits {tgt : Extent} {rest : List Extent}
    (hopens : ∀ f, w.opens f = none) (hreopens : ∀ k f, w.reopens k f = none) (hne : rest ≠ [])
    (fsBlocksize kernBytes : Nat) :
    ∃ ctxt ∈ (dedupeExtentList w len (tgt :: rest) fsBlocksize kernBytes).2.submitted,
      ctxt.source = tgt ∧ ctxt.origLen = len := by
  have hn : 2 ≤ (tgt :: rest).length := by
    rw [List.length_cons]
    exact Nat.succ_le_succ (List.length_pos_iff.2 hne)
  have hopening : opening w (tgt :: rest) = tgt :: rest :=
    List.filter_eq_self.2 fun e _ => by rw [DedupeWorld.canOpen, hopens]; rfl
  obtain ⟨batches, left, hsubmits, -, hends⟩ := dedupeExtentList_post hn w len fsBlocksize kernBytes
  have hsome : (dedupeExtentList w len (tgt :: rest) fsBlocksize kernBytes).2.submitted ≠ [] := by
    have hall : left = [] → batches ≠ [] := by
      rintro rfl rfl
      have hsplit := hsubmits.split
      rw [hopening] at hsplit
      exact hne hsplit
    have hbatches : batches ≠ [] →
        (dedupeExtentList w len (tgt :: rest) fsBlocksize kernBytes).2.submitted ≠ [] := by
      intro hsome hnone
      rw [hsubmits.submitted tgt (by rw [hopening]; rfl)] at hnone
      exact hsome (List.map_eq_nil_iff.1 hnone)
    rcases hends with hstuck | ⟨-, -, hleft | ⟨tgt', k, -, hre⟩⟩ | ⟨-, -, hleft⟩
    · exact driverLoop_hangs w _ len _ _ hstuck
    · exact hbatches (hall hleft)
    · exact absurd (hreopens k tgt'.eFile) hre
    · exact hbatches (hall hleft)
  obtain ⟨ctxt, hctxt⟩ := List.exists_mem_of_ne_nil _ hsome
  obtain ⟨tgt', rest', b, hopen, rfl, -⟩ := hsubmits.context hctxt
  rw [hopening] at hopen
  cases hopen
  exact ⟨_, hctxt, rfl, rfl⟩

/-- A context that is submitted has the length of the group, and is for extents of the
    group. -/
theorem submitted_extents {extents : List Extent} (hn : 2 ≤ extents.length)
    {fsBlocksize kernBytes : Nat} {exit : DriverExit}
    (hrun : dedupeExtentList w len extents fsBlocksize kernBytes = (exit, d)) {ctxt : DedupeCtxt}
    (hctxt : ctxt ∈ d.submitted) :
    ctxt.origLen = len ∧ ctxt.source ∈ extents ∧ ∀ e ∈ ctxt.dests, e ∈ extents := by
  obtain ⟨batches, left, hsubmits, -, -⟩ := dedupeExtentList_post hn w len fsBlocksize kernBytes
  rw [hrun] at hsubmits
  obtain ⟨tgt, rest, b, hopen, rfl, -, -, hrest⟩ := hsubmits.context hctxt
  have hmem : ∀ e ∈ tgt :: rest, e ∈ extents := fun e he =>
    List.mem_of_mem_filter (p := w.canOpen) (hopen ▸ he : e ∈ opening w extents)
  rw [filledCtxt_dests]
  exact ⟨rfl, hmem tgt List.mem_cons_self, fun e he => hmem e (List.mem_cons_of_mem _ (hrest e he))⟩

/-- How a pass comes to the driver. -/
theorem dedupeGroup_ran {res res' : ResultsTree} {k : Nat × DigestBytes}
    {fsBlocksize kernBytes : Nat} {exit : DriverExit} :
    dedupeGroup w res k fsBlocksize kernBytes = .ran exit d res' ↔
      cleanDeduped res k = .returned res' ∧ ∃ g, res'.root[k]? = some g ∧
        dedupeExtentList w g.deLen (g.deExtents.map ResultExtent.place) fsBlocksize kernBytes =
          (exit, d) := by
  unfold dedupeGroup
  split
  · rename_i hclean
    simp [hclean]
  · rename_i res₁ hclean
    rw [hclean, CleanExit.returned.injEq]
    cases hg : res₁.root[k]? with
    | none =>
      constructor
      · rintro ⟨⟩
      · rintro ⟨rfl, g, hg', -⟩
        rw [hg] at hg'
        cases hg'
    | some g =>
      constructor
      · rintro ⟨⟩
        exact ⟨rfl, g, hg, rfl⟩
      · rintro ⟨rfl, g', hg', hrun⟩
        rw [hg] at hg'
        cases hg'
        simp only [hrun]
  · rename_i hreturned
    simp only [reduceCtorEq, false_iff]
    rintro ⟨hclean, -⟩
    exact hreturned _ hclean

end Driver

-- ---------------------------------------------------------------------------
-- Extents that are always dropped
-- ---------------------------------------------------------------------------

/-- The load of the batch `seq` brings the extent into a group. -/
structure ExtentRow.IsLoaded (t : Tables) (seq : Nat) (x : ExtentRow) : Prop where
  mem : x ∈ sharedExtents t seq x.digest x.len
  two : 2 ≤ (sharedExtents t seq x.digest x.len).length
  current : ∃ y ∈ sharedExtents t seq x.digest x.len, y.isCurrent t seq

/-- `clean_deduped` drops the extent from its group whatever the order of the files is:
    its physical offset is known, and the whole group lies there or an earlier extent of
    the same file does. -/
structure ExtentRow.IsDropped (t : Tables) (seq : Nat) (x : ExtentRow) : Prop where
  known : x.poff ≠ 0
  shares : (∀ y ∈ sharedExtents t seq x.digest x.len, y.poff = x.poff) ∨
    ∃ y ∈ sharedExtents t seq x.digest x.len,
      y.fileid = x.fileid ∧ y.loff < x.loff ∧ y.poff = x.poff

section Dropped

variable {t : Tables} {seq : Nat} {reg : Registry} {g : DupeExtents} {y z : ResultExtent}

theorem LoadedGroup.stale_iff (hg : LoadedGroup t seq reg g) (hy : y ∈ g.deExtents) :
    Stale g.deLen y ↔ y.ePoff ≠ 0 := by
  rw [Duperemove.stale_iff, hg.lengths y hy]
  exact and_iff_left (Nat.le_refl _)

/-- A group shares when all its rows have one physical offset that is known. -/
theorem LoadedGroup.allShare_iff (hg : LoadedGroup t seq reg g) (hy : y ∈ g.deExtents) :
    g.AllShare ↔ y.ePoff ≠ 0 ∧ ∀ x ∈ sharedExtents t seq g.deHash g.deLen, x.poff = y.ePoff := by
  constructor
  · intro hshare
    refine ⟨(hg.stale_iff hy).1 (hshare.stale y hy), fun x hx => ?_⟩
    obtain ⟨z, hz, -, -, hpoff⟩ := hg.extent hx
    rw [hpoff]
    exact hshare.same z hz y hy
  · rintro ⟨hpoff, hall⟩
    have hsame : ∀ z ∈ g.deExtents, z.ePoff = y.ePoff := by
      intro z hz
      obtain ⟨x, hx, -, -, hzpoff⟩ := hg.row hz
      rw [← hzpoff]
      exact hall x hx
    refine ⟨fun z hz => (hg.stale_iff hz).2 ?_, fun z hz z' hz' => ?_⟩
    · rw [hsame z hz]
      exact hpoff
    · rw [hsame z hz, hsame z' hz']

/-- In one file the order of the tree is that of the offsets. -/
theorem before_iff_of_addr (haddr : z.eFile.addr = y.eFile.addr) :
    z.Before y ↔ z.eLoff < y.eLoff := by
  simp [ResultExtent.Before, pairCmp, compareLex, compareOn, ResultExtent.key, haddr,
    Nat.compare_eq_lt]

/-- Nothing is in front of the file with the least address. -/
theorem before_iff_of_addr_zero (haddr : y.eFile.addr = 0) :
    z.Before y ↔ z.eFile.addr = 0 ∧ z.eLoff < y.eLoff := by
  by_cases hz : z.eFile.addr = 0
  · rw [before_iff_of_addr (hz.trans haddr.symm)]
    exact (and_iff_right hz).symm
  · have hgt : compare z.eFile.addr 0 = .gt := Nat.compare_eq_gt.2 (Nat.pos_of_ne_zero hz)
    simp [ResultExtent.Before, pairCmp, compareLex, compareOn, ResultExtent.key, haddr, hgt, hz]

theorem key_of_mem_sharedExtents {digest : DigestBytes} {len : Nat} {x : ExtentRow}
    (hx : x ∈ sharedExtents t seq digest len) :
    x ∈ t.extents ∧ x.digest = digest ∧ x.len = len := by
  obtain ⟨hmem, hkey⟩ := List.mem_filter.1 hx
  obtain ⟨hdigest, hlen, -⟩ := of_decide_eq_true hkey
  exact ⟨hmem, hdigest, hlen⟩

/-- A row that is always dropped is dropped, unless its group is freed. -/
theorem LoadedGroup.gone (hg : LoadedGroup t seq reg g) (hy : y ∈ g.deExtents) {x : ExtentRow}
    (hx : x ∈ sharedExtents t seq g.deHash g.deLen) (hid : x.fileid = y.eFile.fileid)
    (hloff : x.loff = y.eLoff) (hpoff : x.poff = y.ePoff) (hdropped : x.IsDropped t seq)
    {res res' : ResultsTree} {k : Nat × DigestBytes} {g' : DupeExtents}
    (hroot : res.root[k]? = some g) (hclean : cleanDeduped res k = .returned res')
    (hg' : res'.root[k]? = some g') : y ∉ g'.deExtents := by
  obtain ⟨-, hdigest, hlen⟩ := key_of_mem_sharedExtents hx
  have hshares := hdropped.shares
  have hknown := hdropped.known
  rw [hdigest, hlen, hpoff] at hshares
  rw [hpoff] at hknown
  have hnot : ¬ g.AllShare := by
    intro hshare
    obtain ⟨res'', hfreed⟩ := cleanDeduped_freed hroot hg.two hshare
    rw [hclean] at hfreed
    cases hfreed
  rcases hshares with hall | ⟨x', hx', hid', hloff', hpoff'⟩
  · exact absurd ((hg.allShare_iff hy).2 ⟨hknown, hall⟩) hnot
  · obtain ⟨z, hz, hzid, hzloff, hzpoff⟩ := hg.extent hx'
    have hfile : z.eFile = y.eFile := by
      have hfind := hg.known z hz
      rw [← hzid, hid', hid, hg.known y hy] at hfind
      exact (Option.some.inj hfind).symm
    have hrepeats : g.Repeats y := by
      refine ⟨(hg.stale_iff hy).2 hknown, z, hz, ?_, hzpoff ▸ hpoff'⟩
      rw [before_iff_of_addr (congrArg Filerec.addr hfile)]
      omega
    have hend := cleanDeduped_spec hroot (List.ne_nil_of_mem hy)
    rw [hclean] at hend
    cases hend with
    | returned hremains _ hkept =>
      have heq := hremains.here
      rw [hg'] at heq
      cases heq
      intro hin
      rcases hkept with hno | hsame
      · exact hno y hin hrepeats
      · refine hnot ⟨fun v hv => (hg.stale_iff hv).2 ?_, hsame⟩
        rw [hsame v hv y hy]
        exact hknown

/-- A row in the file with the least address stays, unless it is always dropped. -/
theorem LoadedGroup.stays (hg : LoadedGroup t seq reg g) (hy : y ∈ g.deExtents) {x : ExtentRow}
    (hx : x ∈ sharedExtents t seq g.deHash g.deLen) (hid : x.fileid = y.eFile.fileid)
    (hloff : x.loff = y.eLoff) (hpoff : x.poff = y.ePoff) (hstays : ¬ x.IsDropped t seq)
    (haddr : y.eFile.addr = 0) {res : ResultsTree} {k : Nat × DigestBytes}
    (hroot : res.root[k]? = some g) :
    ∃ res' g', cleanDeduped res k = .returned res' ∧ res'.root[k]? = some g' ∧
      DropsShared g g' ∧ y ∈ g'.deExtents := by
  obtain ⟨-, hdigest, hlen⟩ := key_of_mem_sharedExtents hx
  have hnot : ¬ g.AllShare := by
    intro hshare
    obtain ⟨hknown, hall⟩ := (hg.allShare_iff hy).1 hshare
    refine hstays ⟨?_, .inl ?_⟩
    · rw [hpoff]
      exact hknown
    · rw [hdigest, hlen, hpoff]
      exact hall
  obtain ⟨res', hclean⟩ := returned_of_not_allShare hroot (List.ne_nil_of_mem hy) hnot
  obtain ⟨g', hg', hdrops⟩ := dropsShared_of_returned hroot hg.two hclean
  refine ⟨res', g', hclean, hg', hdrops, ?_⟩
  by_contra hgone
  obtain ⟨hknown, -, z, hz, hbefore, hsame⟩ := hdrops.dropped y hy hgone
  obtain ⟨hzaddr, hzloff⟩ := (before_iff_of_addr_zero haddr).1 hbefore
  have hzmem := hdrops.sublist.subset hz
  have hfile : z.eFile = y.eFile :=
    ResultsTree.eq_of_addr (hg.known z hzmem) (hg.known y hy) (hzaddr.trans haddr.symm)
  obtain ⟨x', hx', hid', hloff', hpoff'⟩ := hg.row hzmem
  refine hstays ⟨by rwa [hpoff], .inr ⟨x', ?_, ?_, ?_, ?_⟩⟩
  · rw [hdigest, hlen]
    exact hx'
  · rw [hid', hid, hfile]
  · omega
  · rw [hpoff', hpoff, hsame]

end Dropped

-- ---------------------------------------------------------------------------
-- Requests inside the files
-- ---------------------------------------------------------------------------

/-- The `len` bytes at an extent lie inside its file, which is the scanned file whose
    record has the address. -/
def InsideFile (reg : Registry) (files : List ScannedFile) (len : Nat) (e : Extent) : Prop :=
  ∃ f ∈ files, ∃ r, reg.filerecFind f.fileid = some r ∧ r.addr = e.eFile ∧
    e.eLoff + len ≤ f.content.length

/-- The source and all destinations of a context lie inside their files. -/
structure DedupeCtxt.Inside (reg : Registry) (files : List ScannedFile) (ctxt : DedupeCtxt) :
    Prop where
  source : InsideFile reg files ctxt.origLen ctxt.source
  dests : ∀ e ∈ ctxt.dests, InsideFile reg files ctxt.origLen e

/-- Whatever the order of the rows, the records at the start, the files that open and
    the answers of the kernel are, all requests for a group that is still as it was
    loaded lie inside the files. -/
def RequestsInside (db : Hashfile) (files : List ScannedFile) (seq : Nat) : Prop :=
  ∀ rows reg s, rows.Perm (getDuplicateExtents db.toTables seq) →
    dbfileLoadExtentHashes db.toTables rows ⟨reg, .empty⟩ = some s →
    ∀ (res : ResultsTree) (k : Nat × DigestBytes), res.root[k]? = s.res.root[k]? →
    ∀ w fsBlocksize kernBytes exit d res',
      dedupeGroup w res k fsBlocksize kernBytes = .ran exit d res' →
      ∀ ctxt ∈ d.submitted, ctxt.Inside s.reg files

section Requests

variable {h : Xxh DigestBytes} {db : Hashfile} {files : List ScannedFile} {seq : Nat}

/-- An extent of a loaded group lies inside its file, or it is the last extent of the
    map of its file and goes on behind the end. -/
theorem LoadedGroup.inside_or_rounded (hscans : db.toTables.HoldsScans h files) {reg : Registry}
    {g : DupeExtents} (hg : LoadedGroup db.toTables seq reg g) {y : ResultExtent}
    (hy : y ∈ g.deExtents) :
    InsideFile reg files g.deLen y.place ∨
      ∃ f ∈ files, ∃ e ∈ f.job.fiemap.fmExtents, e.isLast ∧ f.job.filesize < e.feEnd ∧
        ∃ x ∈ sharedExtents db.toTables seq g.deHash g.deLen,
          x.fileid = f.fileid ∧ x.loff = e.feLogical ∧ x.len = e.feLength ∧
          x.fileid = y.eFile.fileid ∧ x.loff = y.eLoff ∧ x.poff = y.ePoff := by
  obtain ⟨x, hx, hid, hloff, hpoff⟩ := hg.row hy
  obtain ⟨hmem, -, hlen⟩ := key_of_mem_sharedExtents hx
  obtain ⟨f, hf, hfid, e, he, heloff, helen, hend⟩ := hscans.origin hmem
  by_cases hin : e.feEnd ≤ f.job.filesize
  · left
    refine ⟨f, hf, y.eFile, ?_, rfl, ?_⟩
    · rw [← hfid, hid]
      exact hg.known y hy
    · show y.eLoff + g.deLen ≤ f.content.length
      rw [f.unchanged, ← hloff, ← hlen, heloff, helen]
      exact hin
  · exact .inr ⟨f, hf, e, he, hend.resolve_right hin, Nat.lt_of_not_le hin, x, hx, hfid, heloff,
      helen, hid, hloff, hpoff⟩

/-- The first member of a list comes first in a part of it that still has it. -/
theorem eq_cons_of_sublist {α : Type} {a : α} {as l : List α} (hnodup : (a :: as).Nodup)
    (hsub : l.Sublist (a :: as)) (ha : a ∈ l) : ∃ rest, l = a :: rest := by
  cases hsub with
  | cons _ hsub => exact absurd (hsub.subset ha) (List.nodup_cons.1 hnodup).1
  | cons_cons _ hsub => exact ⟨_, rfl⟩

/-- A row that is loaded is one of those that the query selects. -/
theorem ExtentRow.IsLoaded.selected {x : ExtentRow} (hx : x.IsLoaded db.toTables seq) :
    ∃ f, (x, f) ∈ getDuplicateExtents db.toTables seq := by
  have hrows := map_fst_filter_getDuplicateExtents db seq x.digest x.len
  rw [if_pos ⟨hx.two, hx.current⟩] at hrows
  obtain ⟨⟨x', f⟩, hp, rfl⟩ := List.mem_map.1 (hrows ▸ hx.mem)
  exact ⟨f, List.mem_of_mem_filter hp⟩

/-- Some run submits a request for a row that is loaded and not always dropped. -/
theorem ExtentRow.IsLoaded.submitted {x : ExtentRow} (hx : x.IsLoaded db.toTables seq)
    (hstays : ¬ x.IsDropped db.toTables seq) :
    ∃ rows s k exit d res', rows.Perm (getDuplicateExtents db.toTables seq) ∧
      dbfileLoadExtentHashes db.toTables rows ⟨.empty, .empty⟩ = some s ∧
      dedupeGroup pageWorld s.res k 0 0 = .ran exit d res' ∧
      ∃ ctxt ∈ d.submitted, ∃ r, s.reg.filerecFind x.fileid = some r ∧
        ctxt.source = ⟨r.addr, x.loff⟩ ∧ ctxt.origLen = x.len := by
  obtain ⟨fx, hselected⟩ := hx.selected
  obtain ⟨rows, s, y, hrows, hload, ⟨g, hroot, hhead⟩, haddr, hid, hloff, hpoff⟩ :=
    exists_load_first hselected
  have hg := loadedGroup_of_load hrows hload hroot
  obtain ⟨hlen, hdigest⟩ := Prod.mk.inj (s.res.keyed _ g hroot)
  obtain ⟨others, hextents⟩ := List.head?_eq_some_iff.1 hhead
  have hy : y ∈ g.deExtents := hextents ▸ List.mem_cons_self
  have hmem : x ∈ sharedExtents db.toTables seq g.deHash g.deLen := by
    rw [hdigest, hlen]
    exact hx.mem
  obtain ⟨res', g', hclean, hg', hdrops, hleft⟩ :=
    hg.stays hy hmem hid.symm hloff.symm hpoff.symm hstays haddr hroot
  have hnodup := List.Nodup.of_map _ g.keys_nodup
  rw [hextents] at hnodup
  obtain ⟨rest, hrest⟩ := eq_cons_of_sublist hnodup (hextents ▸ hdrops.sublist) hleft
  have hsome : rest.map ResultExtent.place ≠ [] := by
    have htwo := hdrops.two
    rw [hrest, List.length_cons] at htwo
    rw [ne_eq, List.map_eq_nil_iff]
    exact List.length_pos_iff.1 (by omega)
  have hlen' : g'.deLen = x.len := congrArg Prod.fst (res'.keyed _ g' hg')
  obtain ⟨ctxt, hctxt, hsource, horig⟩ := @dedupeExtentList_submits pageWorld g'.deLen y.place _
    (fun _ => rfl) (fun _ _ => rfl) hsome 0 0
  refine ⟨rows, s, _, _, _, res', hrows, hload, dedupeGroup_ran.2 ⟨hclean, g', hg', rfl⟩, ctxt, ?_,
    y.eFile, ?_, ?_, horig.trans hlen'⟩
  · rw [hrest]
    exact hctxt
  · rw [← hid]
    exact hg.known y hy
  · rw [hsource, ← hloff]
    rfl

/-- When all requests lie inside the files, a last extent that goes on behind the end of
    its file is always dropped once it is loaded. -/
theorem RequestsInside.dropped (hall : RequestsInside db files seq)
    (hscans : db.toTables.HoldsScans h files) {f : ScannedFile} (hf : f ∈ files)
    {e : FiemapExtent} (hend : f.job.filesize < e.feEnd) {x : ExtentRow}
    (hid : x.fileid = f.fileid) (hloff : x.loff = e.feLogical) (hlen : x.len = e.feLength)
    (hloaded : x.IsLoaded db.toTables seq) : x.IsDropped db.toTables seq := by
  by_contra hstays
  obtain ⟨rows, s, k, exit, d, res', hrows, hload, hran, ctxt, hctxt, r, hr, hsource, horig⟩ :=
    hloaded.submitted hstays
  obtain ⟨f', hf', r', hr', haddr, hle⟩ :=
    (hall rows .empty s hrows hload s.res k rfl _ 0 0 _ _ _ hran ctxt hctxt).source
  rw [hsource] at haddr hle
  have hsame : f'.fileid = x.fileid := s.reg.addr_inj _ _ _ _ hr' hr haddr
  obtain rfl := hscans.eq_of_fileid hf' hf (hsame.trans hid)
  rw [horig, f'.unchanged, hloff, hlen] at hle
  exact absurd hend (Nat.not_lt.2 hle)

/-- A loaded group that `clean_deduped` returns has all its extents inside their files
    when those that go on behind the end are dropped. -/
theorem LoadedGroup.left_inside (hscans : db.toTables.HoldsScans h files) {reg : Registry}
    {g g' : DupeExtents} (hg : LoadedGroup db.toTables seq reg g)
    (hdropped : ∀ f ∈ files, ∀ e ∈ f.job.fiemap.fmExtents, e.isLast → f.job.filesize < e.feEnd →
      ∀ x ∈ db.extents, x.fileid = f.fileid → x.loff = e.feLogical → x.len = e.feLength →
        x.IsLoaded db.toTables seq → x.IsDropped db.toTables seq)
    {res res' : ResultsTree} {k : Nat × DigestBytes} (hroot : res.root[k]? = some g)
    (hclean : cleanDeduped res k = .returned res') (hg' : res'.root[k]? = some g')
    (hsub : g'.deExtents.Sublist g.deExtents) {y : ResultExtent} (hy : y ∈ g'.deExtents) :
    InsideFile reg files g.deLen y.place := by
  have hymem := hsub.subset hy
  rcases hg.inside_or_rounded hscans hymem with hinside | ⟨f, hf, e, he, hlast, hend, x, hx,
    hfid, heloff, helen, hid, hloff, hpoff⟩
  · exact hinside
  · obtain ⟨hmem, hxdigest, hxlen⟩ := key_of_mem_sharedExtents hx
    have htwo := hg.two
    rw [g.numDupes_eq, ← List.length_map, ← DupeExtents.members, hg.members.length_eq,
      List.length_map] at htwo
    have hloaded : x.IsLoaded db.toTables seq := by
      constructor <;> rw [hxdigest, hxlen]
      · exact hx
      · exact htwo
      · exact hg.current
    have hgone := hdropped f hf e he hlast hend x hmem hfid heloff helen hloaded
    exact absurd hy (hg.gone hymem hx hid hloff hpoff hgone hroot hclean hg')

/-- All requests for the groups of a batch lie inside the files exactly when every last
    extent that goes on behind the end of its file is in no group, or `clean_deduped`
    drops it in any order of the files. -/
theorem dedupeGroup_inside_iff (hscans : db.toTables.HoldsScans h files) (seq : Nat) :
    RequestsInside db files seq ↔
      ∀ f ∈ files, ∀ e ∈ f.job.fiemap.fmExtents, e.isLast → f.job.filesize < e.feEnd →
        ∀ x ∈ db.extents, x.fileid = f.fileid → x.loff = e.feLogical → x.len = e.feLength →
          x.IsLoaded db.toTables seq → x.IsDropped db.toTables seq := by
  constructor
  · intro hall f hf e _ _ hend x _ hid hloff hlen hloaded
    exact hall.dropped hscans hf hend hid hloff hlen hloaded
  · intro hdropped rows reg s hrows hload res k hsame w fsBlocksize kernBytes exit d res' hran ctxt
      hctxt
    obtain ⟨hclean, g', hg', hrun⟩ := dedupeGroup_ran.1 hran
    cases hroot : s.res.root[k]? with
    | none =>
      rw [hroot] at hsame
      simp [cleanDeduped, hsame] at hclean
    | some g =>
      rw [hroot] at hsame
      have hg := loadedGroup_of_load hrows hload hroot
      obtain ⟨_, hleft, hdrops⟩ := dropsShared_of_returned hsame hg.two hclean
      rw [hg'] at hleft
      cases hleft
      have hlen : g'.deLen = g.deLen :=
        congrArg Prod.fst ((res'.keyed k g' hg').trans (res.keyed k g hsame).symm)
      have hin : ∀ e ∈ g'.deExtents.map ResultExtent.place, InsideFile s.reg files g.deLen e := by
        intro _ hplace
        obtain ⟨y, hy, rfl⟩ := List.mem_map.1 hplace
        exact hg.left_inside hscans hdropped hsame hclean hg' hdrops.sublist hy
      have hn : 2 ≤ (g'.deExtents.map ResultExtent.place).length := by
        rw [List.length_map]
        exact hdrops.two
      obtain ⟨horig, hsource, hdests⟩ := submitted_extents hn hrun hctxt
      rw [hlen] at horig
      refine ⟨?_, fun e he => ?_⟩
      · rw [horig]
        exact hin _ hsource
      · rw [horig]
        exact hin _ (hdests e he)

end Requests

-- ---------------------------------------------------------------------------
-- Two files of up to one page
-- ---------------------------------------------------------------------------

/-- A map of one page at a physical offset. -/
def pageFiemap (phys : Nat) : Fiemap where
  fmExtents := [⟨0, phys, 4096, fiemapExtentLast⟩]
  positive := by simp
  fits := by simp [FiemapExtent.feEnd]
  sorted := List.pairwise_singleton _ _

/-- A file of up to one page, with the whole page in its map. -/
def pageFile (fileid phys size : Nat) (hpos : 0 < size) (hsize : size ≤ 4096) : ScannedFile where
  fileid := fileid
  job := .ofContent {} 4096 (pageFiemap phys) (List.replicate size 7) 4096 minBlocksize_le_page
    page_le_maxBlocksize (by rwa [List.length_replicate]) (by rw [List.length_replicate]; omega)
  content := List.replicate size 7
  thread := .fresh
  unchanged := rfl
  reads := readsFile_ofContent (by decide)

/-- The scan of such a file stores the whole page. -/
theorem pageFile_commit (fileid phys size : Nat) (hpos : 0 < size) (hsize : size ≤ 4096) :
    ∃ r, (pageFile fileid phys size hpos hsize).commit .zero = some r ∧
      extentHashRows fileid r.extents = [⟨zeroDigest, fileid, 0, phys, 4096⟩] := by
  generalize hfile : pageFile fileid phys size hpos hsize = f
  have hextents : f.job.fiemap.fmExtents = [⟨0, phys, 4096, fiemapExtentLast⟩] := by
    rw [← hfile]
    rfl
  have hfilesize : f.job.filesize = size := by
    rw [← hfile]
    exact List.length_replicate
  have hlast : FiemapExtent.isLast ⟨0, phys, 4096, fiemapExtentLast⟩ = true := by
    change (fiemapExtentLast &&& fiemapExtentLast != 0#32) = true
    decide
  have hskip : FiemapExtent.isSkipped ⟨0, phys, 4096, fiemapExtentLast⟩ = false := by
    change (fiemapExtentLast &&& fiemapSkipFlags != 0#32) = false
    decide
  have htiles : f.job.fiemap.Tiles f.job.filesize := by
    rw [hfilesize]
    constructor <;> rw [hextents]
    · rfl
    · exact .singleton _
    · exact ⟨_, rfl, hlast, hsize⟩
  have hstored : FiemapExtent.IsStored f.job ⟨0, phys, 4096, fiemapExtentLast⟩ :=
    ⟨by rw [hfilesize]; exact hpos, .inl hlast⟩
  have hoptions : f.job.options.onlyWholeFiles = false := by
    rw [← hfile]
    rfl
  obtain ⟨r, hcommit, hrows⟩ := @csumWholeFile_storedRows _ f.job .zero _ f.thread f.unchanged
    f.reads htiles (by rw [hextents]; exact fun e he => absurd he List.not_mem_nil)
    (.inl (by rw [hfilesize]; unfold readBufLen; omega))
  refine ⟨r, hcommit, ?_⟩
  rw [extentHashRows, hrows, hoptions, hextents]
  simp [hskip, hstored, extentRow, Xxh.zero]

/-- Two such files with the same content at different physical offsets. -/
def twoPages (size : Nat) (hpos : 0 < size) (hsize : size ≤ 4096) : List ScannedFile :=
  [pageFile 1 65536 size hpos hsize, pageFile 2 131072 size hpos hsize]

/-- The hashfile after their scans. -/
def twoPagesHashfile (size : Nat) : Hashfile where
  files := [⟨1, "/a", 10, 0, size, 5, 1, some zeroDigest, some 0⟩,
    ⟨2, "/b", 11, 0, size, 5, 1, some zeroDigest, some 0⟩]
  extents := [⟨zeroDigest, 1, 0, 65536, 4096⟩, ⟨zeroDigest, 2, 0, 131072, 4096⟩]
  blocks := []
  constraints := by constructor <;> simp

theorem twoPages_holdsScans (size : Nat) (hpos : 0 < size) (hsize : size ≤ 4096) :
    (twoPagesHashfile size).toTables.HoldsScans .zero (twoPages size hpos hsize) := by
  refine ⟨(by decide : [1, 2].Nodup), fun x => ?_⟩
  have hrows : ∀ fileid phys, (∃ r, (pageFile fileid phys size hpos hsize).commit .zero = some r ∧
      x ∈ extentHashRows fileid r.extents) ↔ x = ⟨zeroDigest, fileid, 0, phys, 4096⟩ := by
    intro fileid phys
    obtain ⟨r, hcommit, hextents⟩ := pageFile_commit fileid phys size hpos hsize
    rw [hcommit]
    constructor
    · rintro ⟨_, ⟨⟩, hx⟩
      rw [hextents] at hx
      exact List.mem_singleton.1 hx
    · rintro rfl
      exact ⟨r, rfl, hextents ▸ List.mem_singleton.2 rfl⟩
  simp only [twoPages, List.exists_mem_cons_iff, List.not_mem_nil, false_and, exists_false,
    or_false]
  refine Iff.trans ?_ (or_congr (hrows 1 65536) (hrows 2 131072)).symm
  simp [twoPagesHashfile]

/-- Of two files of ten bytes the whole page is requested. -/
theorem not_requestsInside_tenBytes :
    (twoPagesHashfile 10).toTables.HoldsScans .zero (twoPages 10 (by decide) (by decide)) ∧
    ¬ RequestsInside (twoPagesHashfile 10) (twoPages 10 (by decide) (by decide)) 1 := by
  have hscans := twoPages_holdsScans 10 (by decide) (by decide)
  refine ⟨hscans, fun hall => ?_⟩
  have hloaded : ExtentRow.IsLoaded (twoPagesHashfile 10).toTables 1
      ⟨zeroDigest, 1, 0, 65536, 4096⟩ := by
    constructor <;> decide
  have hdropped := hall.dropped hscans List.mem_cons_self
    (e := ⟨0, 65536, 4096, fiemapExtentLast⟩) (by decide) rfl rfl rfl hloaded
  rcases hdropped.shares with hall | ⟨_, _, _, hbefore, _⟩
  · have hsame := hall ⟨zeroDigest, 2, 0, 131072, 4096⟩ (by decide)
    exact absurd hsame (by decide)
  · exact absurd hbefore (Nat.not_lt_zero _)

/-- Files of a whole page have all requests inside. -/
theorem dedupeGroup_inside_wholePages :
    (twoPagesHashfile 4096).toTables.HoldsScans .zero (twoPages 4096 (by decide) (by decide)) ∧
    RequestsInside (twoPagesHashfile 4096) (twoPages 4096 (by decide) (by decide)) 1 := by
  have hscans := twoPages_holdsScans 4096 (by decide) (by decide)
  refine ⟨hscans, (dedupeGroup_inside_iff hscans 1).2 ?_⟩
  intro f hf e he _ hend
  refine absurd hend (Nat.not_lt.2 ?_)
  rcases List.mem_cons.1 hf with rfl | hf
  · obtain rfl := List.mem_singleton.1 he
    exact List.length_replicate.ge
  · obtain rfl := List.mem_singleton.1 hf
    obtain rfl := List.mem_singleton.1 he
    exact List.length_replicate.ge

end Duperemove
