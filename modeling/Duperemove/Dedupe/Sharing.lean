-- SUMMARY: A pass over a whole group, and when all its extents share one physical offset afterwards.
import Duperemove.Dedupe.Clean
import Duperemove.Dedupe.Outcome

/-!
# Sharing after a pass

`dedupe_extent_list` first lets `clean_deduped` drop the extents that share with
another one, and hands the rest to the kernel. The kernel maps every destination
that it dedupes in full to the physical offset of the source. The extents that
were dropped stay where they are. So they share with the rest only if the target
lies there too.
-/

namespace Duperemove

/-! ## The pass -/

/-- The range of an extent: its file record and its offset. -/
def ResultExtent.place (e : ResultExtent) : Extent := ⟨e.eFile.addr, e.eLoff⟩

/-- How `dedupe_extent_list` ends: the group was freed by `clean_deduped`, or the
    driver ran over what was left of it. -/
inductive PassExit where
  | cleaned (res : ResultsTree)
  | ran (exit : DriverExit) (d : Driver) (res : ResultsTree)
  | broken

/-- `dedupe_extent_list` on the group `p`. -/
def dedupeGroup (w : DedupeWorld) (res : ResultsTree) (p : Nat × DigestBytes)
    (fsBlocksize kernBytes : Nat) : PassExit :=
  match cleanDeduped res p with
  | .freed res => .cleaned res
  | .returned res =>
    match res.root[p]? with
    | none => .broken
    | some dext =>
      let (exit, d) := dedupeExtentList w dext.deLen (dext.deExtents.map ResultExtent.place)
        fsBlocksize kernBytes
      .ran exit d res
  | _ => .broken

/-! ## Physical offsets -/

/-- The kernel deduped the whole length for a request. -/
def DedupeReq.InFull (len : Nat) (r : DedupeReq) : Prop := r.reqStatus = 0 ∧ r.reqTotal = len

instance (len : Nat) (r : DedupeReq) : Decidable (r.InFull len) :=
  inferInstanceAs (Decidable (_ ∧ _))

/-- The physical offsets after a context: the destinations that were deduped in full
    lie where the source lies. -/
def DedupeCtxt.remap (phys : Extent → Nat) (ctxt : DedupeCtxt) : Extent → Nat := fun e =>
  if ∃ r ∈ ctxt.completed, r.InFull ctxt.origLen ∧ r.dest = e then phys ctxt.source else phys e

/-- The physical offsets after a pass. -/
def PassExit.remap (phys : Extent → Nat) : PassExit → Extent → Nat
  | .ran _ d _ => d.finished.foldl DedupeCtxt.remap phys
  | _ => phys

/-- The kernel deduped every request of a pass in full. -/
def PassExit.InFull : PassExit → Prop
  | .ran exit d _ => exit ≠ .stuck ∧ ∀ ctxt ∈ d.finished,
      ctxt.queued = [] ∧ ctxt.inProgress = [] ∧ ∀ r ∈ ctxt.completed, r.InFull ctxt.origLen
  | _ => True

instance : DecidablePred PassExit.InFull := fun exit =>
  match exit with
  | .cleaned _ => inferInstanceAs (Decidable True)
  | .broken => inferInstanceAs (Decidable True)
  | .ran _ _ _ => inferInstanceAs (Decidable (_ ∧ _))

/-- The pass went to the end of `dedupe_extent_list`. -/
def PassExit.Returns : PassExit → Prop
  | .ran exit _ _ => exit = .returned
  | .cleaned _ => True
  | .broken => False

section Remap

variable {phys : Extent → Nat} {tgt : Extent} {ctxts : List DedupeCtxt}

/-- Contexts with one source, which is not a destination of any of them. -/
theorem foldl_remap (hsource : ∀ ctxt ∈ ctxts, ctxt.source = tgt)
    (htgt : ∀ ctxt ∈ ctxts, ∀ r ∈ ctxt.completed, r.dest ≠ tgt)
    (hfull : ∀ ctxt ∈ ctxts, ∀ r ∈ ctxt.completed, r.InFull ctxt.origLen) (e : Extent) :
    ((∃ ctxt ∈ ctxts, ∃ r ∈ ctxt.completed, r.dest = e) →
      ctxts.foldl DedupeCtxt.remap phys e = phys tgt) ∧
    ((¬ ∃ ctxt ∈ ctxts, ∃ r ∈ ctxt.completed, r.dest = e) →
      ctxts.foldl DedupeCtxt.remap phys e = phys e) := by
  induction ctxts generalizing phys with
  | nil => exact ⟨fun h => by simp at h, fun _ => rfl⟩
  | cons ctxt ctxts ih =>
    have hhead : ctxt.source = tgt := hsource ctxt List.mem_cons_self
    have hmap : ∀ x, (∃ r ∈ ctxt.completed, r.dest = x) → ctxt.remap phys x = phys tgt := by
      rintro x ⟨r, hr, hdest⟩
      rw [DedupeCtxt.remap, if_pos ⟨r, hr, hfull ctxt List.mem_cons_self r hr, hdest⟩, hhead]
    have hkeep : ∀ x, (¬ ∃ r ∈ ctxt.completed, r.dest = x) → ctxt.remap phys x = phys x := by
      intro x hno
      rw [DedupeCtxt.remap, if_neg]
      rintro ⟨r, hr, -, hdest⟩
      exact hno ⟨r, hr, hdest⟩
    -- The target stays where it is, so the later contexts map to the same offset.
    have hstay : ctxt.remap phys tgt = phys tgt := by
      apply hkeep
      rintro ⟨r, hr, hdest⟩
      exact htgt ctxt List.mem_cons_self r hr hdest
    obtain ⟨ihmap, ihkeep⟩ := @ih (ctxt.remap phys)
      (fun c hc => hsource c (List.mem_cons_of_mem _ hc))
      (fun c hc => htgt c (List.mem_cons_of_mem _ hc))
      (fun c hc => hfull c (List.mem_cons_of_mem _ hc))
    rw [hstay] at ihmap
    simp only [List.foldl_cons, List.exists_mem_cons_iff, not_or]
    constructor
    · intro hdest
      by_cases hlater : ∃ c ∈ ctxts, ∃ r ∈ c.completed, r.dest = e
      · exact ihmap hlater
      · rw [ihkeep hlater]
        exact hmap e (hdest.resolve_right hlater)
    · rintro ⟨hno, hlater⟩
      rw [ihkeep hlater]
      exact hkeep e hno

end Remap

section Pass

variable {w : DedupeWorld} {res : ResultsTree} {p : Nat × DigestBytes} {g : DupeExtents}
variable {phys : Extent → Nat} {fsBlocksize kernBytes : Nat}

/-- The driver on a group whose files all open: with every request deduped in full,
    the later extents come to lie where the first one lies. -/
theorem dedupeExtentList_remap {len : Nat} {tgt : Extent} {rest : List Extent} {exit : DriverExit}
    {d : Driver} (hopens : ∀ f, w.opens f = none) (hreopens : ∀ k f, w.reopens k f = none)
    (hne : rest ≠ []) (hnodup : (tgt :: rest).Nodup) (hoff : ∀ e ∈ tgt :: rest, e.eLoff < 2 ^ 64)
    (hrun : dedupeExtentList w len (tgt :: rest) fsBlocksize kernBytes = (exit, d))
    (hfull : (PassExit.ran exit d res).InFull) :
    exit = .returned ∧ ∀ e, d.finished.foldl DedupeCtxt.remap phys e =
      if e ∈ rest then phys tgt else phys e := by
  have hn : 2 ≤ (tgt :: rest).length := by
    rw [List.length_cons]
    exact Nat.succ_le_succ (List.length_pos_iff.2 hne)
  have hopening : opening w (tgt :: rest) = tgt :: rest :=
    List.filter_eq_self.2 fun e _ => by rw [DedupeWorld.canOpen, hopens]; rfl
  obtain ⟨hends, hall⟩ := hfull
  have hreturned : exit = .returned := by
    obtain ⟨batches, left, -, -, hpost⟩ := dedupeExtentList_post hn w len fsBlocksize kernBytes
    rw [hrun] at hpost
    rcases hpost with hstuck | ⟨hret, -⟩ | ⟨-, hleaves, -⟩
    · exact absurd hstuck hends
    · exact hret
    · have hlast := hleaves.last _ (List.getLast?_eq_some_getLast (List.cons_ne_nil tgt rest))
      rw [DedupeWorld.canOpen, hopens] at hlast
      cases hlast
  obtain ⟨hfins, hserved⟩ := dedupeExtentList_outcome hn hoff fsBlocksize kernBytes hrun hends
  rw [hopening] at hfins hserved
  have hrequests : ∀ fin ∈ d.finished, fin.requests = fin.completed := by
    intro fin hfin
    obtain ⟨hqueued, hprogress, -⟩ := hall fin hfin
    rw [DedupeCtxt.requests, hqueued, hprogress]
    rfl
  have htgt : ∀ fin ∈ d.finished, ∀ r ∈ fin.completed, r.dest ∈ rest := by
    intro fin hfin r hr
    exact (hfins fin hfin).2.2 r (by rw [hrequests fin hfin]; exact hr)
  refine ⟨hreturned, fun e => ?_⟩
  obtain ⟨hmap, hkeep⟩ := @foldl_remap phys tgt d.finished
    (fun fin hfin => (Option.some.inj (hfins fin hfin).1).symm)
    (fun fin hfin r hr heq => (List.nodup_cons.1 hnodup).1 (heq ▸ htgt fin hfin r hr))
    (fun fin hfin => (hall fin hfin).2.2) e
  by_cases he : e ∈ rest
  · rw [if_pos he]
    obtain ⟨fin, hfin, r, hr, hdest⟩ := hserved (fun tgt k _ => hreopens k tgt.eFile) e he
    exact hmap ⟨fin, hfin, r, by rw [← hrequests fin hfin]; exact hr, hdest⟩
  · rw [if_neg he]
    refine hkeep ?_
    rintro ⟨fin, hfin, r, hr, hdest⟩
    exact he (hdest ▸ htgt fin hfin r hr)

theorem ResultExtent.place_eq_iff {x y : ResultExtent} : x.place = y.place ↔ x.key = y.key := by
  simp only [place, key, Extent.mk.injEq, Prod.mk.injEq]

/-- The extents of a group lie at different places. -/
theorem DupeExtents.places_nodup (g : DupeExtents) :
    (g.deExtents.map ResultExtent.place).Nodup := by
  have hkeys := g.keys_nodup
  rw [List.Nodup, List.pairwise_map] at hkeys ⊢
  exact hkeys.imp fun hne heq => hne (ResultExtent.place_eq_iff.1 heq)

/-- A sublist that holds exactly the members with a property is the filtered list. -/
theorem eq_filter_of_sublist {l l' : List ResultExtent} {q : ResultExtent → Prop}
    [DecidablePred q] (hsub : l'.Sublist l) (hnodup : l.Nodup)
    (hin : ∀ x ∈ l', q x) (hout : ∀ x ∈ l, x ∉ l' → ¬ q x) : l' = l.filter q := by
  have hle : l'.Sublist (l.filter q) := by
    have := hsub.filter q
    rwa [List.filter_eq_self.2 fun x hx => decide_eq_true (hin x hx)] at this
  refine hle.eq_of_length_le ?_
  refine (List.subperm_of_subset (hnodup.filter _) fun x hx => ?_).length_le
  obtain ⟨hx, hq⟩ := List.mem_filter.1 hx
  by_contra hno
  exact hout x hx hno (of_decide_eq_true hq)

/-- The offsets after a pass over what `clean_deduped` left, seen from the extents of
    the group at entry. -/
theorem remap_place_eq {g' : DupeExtents} {tgt : ResultExtent} {rest : List ResultExtent}
    {off : Extent → Nat} (hleft : g'.deExtents = tgt :: rest)
    (hsub : g'.deExtents.Sublist g.deExtents) (hphys : ∀ e ∈ g.deExtents, phys e.place = e.ePoff)
    (hoff : ∀ e, off e = if e ∈ rest.map ResultExtent.place then phys tgt.place else phys e)
    {x : ResultExtent} (hx : x ∈ g.deExtents) :
    off x.place = if x ∈ g'.deExtents then tgt.ePoff else x.ePoff := by
  have htgt : tgt ∈ g'.deExtents := hleft ▸ List.mem_cons_self
  have hmem : x.place ∈ rest.map ResultExtent.place ↔ x ∈ rest := by
    constructor
    · intro hin
      obtain ⟨y, hy, hplace⟩ := List.mem_map.1 hin
      have hy' : y ∈ g.deExtents := hsub.subset (hleft ▸ List.mem_cons_of_mem _ hy)
      have heq := List.inj_on_of_nodup_map g.keys_nodup hy' hx (ResultExtent.place_eq_iff.1 hplace)
      exact heq ▸ hy
    · exact fun hin => List.mem_map_of_mem hin
  rw [hoff, hphys tgt (hsub.subset htgt), hphys x hx]
  by_cases hin : x ∈ rest
  · rw [if_pos (hmem.2 hin), if_pos (hleft ▸ List.mem_cons_of_mem _ hin)]
  · rw [if_neg (mt hmem.1 hin)]
    by_cases heq : x = tgt
    · rw [heq, if_pos htgt]
    · rw [if_neg]
      rw [hleft, List.mem_cons, not_or]
      exact ⟨heq, hin⟩

/-- When all extents that are left lie at one offset and the others lie where they were,
    all share exactly when the dropped ones lie at that offset too. -/
theorem shares_iff_dropped {g' : DupeExtents} {off : Extent → Nat} {poff : Nat}
    (hsub : g'.deExtents.Sublist g.deExtents) (hleft : g'.deExtents ≠ [])
    (hafter : ∀ x ∈ g.deExtents, off x.place = if x ∈ g'.deExtents then poff else x.ePoff) :
    (∃ o, ∀ x ∈ g.deExtents, off x.place = o) ↔
      ∀ x ∈ g.deExtents, x ∉ g'.deExtents → x.ePoff = poff := by
  constructor
  · rintro ⟨o, hall⟩ x hx hgone
    obtain ⟨tgt, htgt⟩ := List.exists_mem_of_ne_nil _ hleft
    have hx' := hall x hx
    have htgt' := hall tgt (hsub.subset htgt)
    rw [hafter x hx, if_neg hgone] at hx'
    rw [hafter tgt (hsub.subset htgt), if_pos htgt] at htgt'
    rw [hx', htgt']
  · intro hall
    refine ⟨poff, fun x hx => ?_⟩
    rw [hafter x hx]
    split
    · rfl
    · rename_i hgone
      exact hall x hx hgone

/-- The first extent that is left is the first one that does not repeat, unless all of
    the group shares. -/
theorem dropped_iff_repeats {g' : DupeExtents} {tgt : ResultExtent} {rest : List ResultExtent}
    (hsub : g'.deExtents.Sublist g.deExtents) (hleft : g'.deExtents = tgt :: rest)
    (hdropped : ∀ x ∈ g.deExtents, x ∉ g'.deExtents → g.Repeats x)
    (hkept : (∀ x ∈ g'.deExtents, ¬ g.Repeats x) ∨
      ∀ x ∈ g.deExtents, ∀ y ∈ g.deExtents, x.ePoff = y.ePoff) :
    (∀ x ∈ g.deExtents, x ∉ g'.deExtents → x.ePoff = tgt.ePoff) ↔
      ∀ x ∈ g.deExtents, g.Repeats x →
        ∀ t, g.deExtents.find? (fun x => ¬ g.Repeats x) = some t → x.ePoff = t.ePoff := by
  rcases hkept with hno | hshare
  · have hfilter : g'.deExtents = g.deExtents.filter fun x => ¬ g.Repeats x :=
      eq_filter_of_sublist hsub (List.Nodup.of_map _ g.keys_nodup) hno
        fun x hx hgone => not_not.2 (hdropped x hx hgone)
    have hfind : g.deExtents.find? (fun x => ¬ g.Repeats x) = some tgt := by
      rw [← List.head?_filter, ← hfilter, hleft]
      rfl
    constructor
    · intro hall x hx hrepeats t ht
      rw [hfind] at ht
      cases ht
      exact hall x hx fun hin => hno x hin hrepeats
    · exact fun hall x hx hgone => hall x hx (hdropped x hx hgone) tgt hfind
  · have htgt : tgt ∈ g.deExtents := hsub.subset (hleft ▸ List.mem_cons_self)
    refine ⟨fun _ x hx _ t ht => ?_, fun _ x hx _ => ?_⟩
    · exact hshare x hx t (List.mem_of_find?_eq_some ht)
    · exact hshare x hx tgt htgt

end Pass

/-! ## Two pairs -/

/-- The key of the groups below: pages of zeros. -/
def pageKey : Nat × DigestBytes := (4096, Vector.replicate digestLen 0)

/-- One page in each of some files, all with one digest, at physical offsets as
    recorded by the scan. -/
def pagesAt (poffs : List Nat) : ResultsTree :=
  let insert res poff file :=
    ResultsTree.insertOneResult res pageKey.2 ⟨file, "page", file + 1, 4096⟩ 0 pageKey.1 poff
  (poffs.zipIdx.foldlM (fun res (poff, file) => insert res poff file) .empty).getD .empty

/-- Files that open and a kernel that dedupes a page at once. -/
def pageWorld : DedupeWorld where
  opens := fun _ => none
  reopens := fun _ _ => none
  kernel := pageKernel
  fuel := 100

end Duperemove
