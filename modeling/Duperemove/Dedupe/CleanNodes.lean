-- SUMMARY: `clean_deduped` over the nodes of the tree: it never looks at a node that is gone, and drops only what shares.
import Duperemove.Dedupe.Sharing

/-!
# Cleaning a group node by node

The loops of `clean_deduped` hold pointers to nodes of a tree that their body
shrinks. Here a pointer is the key of its node, and a node that is not in the tree
any more breaks the walk when it is looked at. The walk over the extents ahead, as
`cleanDeduped` has it, is what these loops do, and it never breaks.
-/

namespace Duperemove

namespace DupeExtents

/-- `rb_entry`; `none` is a node that is not in the tree. -/
def rbEntry (dext : DupeExtents) (node : Nat × Nat) : Option ResultExtent :=
  dext.deExtents.find? fun e => e.key = node

/-- `rb_next` -/
def rbNext (dext : DupeExtents) (node : Nat × Nat) : Option (Nat × Nat) :=
  (dext.inOrder.find? fun x => pairCmp node x.key = .lt).map ResultExtent.key

end DupeExtents

/-! ## The loops -/

/-- In front of a round of the outer loop, or of the inner one. -/
inductive CleanPc where
  | outer (node : Option (Nat × Nat)) (first : Bool)
  | inner (outer : Nat × Nat) (node : Option (Nat × Nat))

structure CleanNodes where
  pc : CleanPc
  kept : Nat
  res : ResultsTree

/-- The head of the outer loop, up to the inner one. -/
def CleanNodes.stepOuter (p : Nat × DigestBytes) (s : CleanNodes) (outer : Nat × Nat)
    (first : Bool) : Loop.Next CleanNodes CleanExit :=
  match s.res.root[p]? with
  | none => .leave .broken
  | some dext =>
    match dext.rbEntry outer with
    | none => .leave .broken
    | some outerExtent =>
      let kept :=
        if first && (decide (outerExtent.ePoff = 0) || diskExtentGrew dext.deLen outerExtent) then
          s.kept + 1
        else s.kept
      .again ⟨.inner outer (dext.rbNext outer), kept, s.res⟩

/-- The end of the inner loop. -/
def CleanNodes.stepNext (p : Nat × DigestBytes) (s : CleanNodes) (outer : Nat × Nat) :
    Loop.Next CleanNodes CleanExit :=
  match s.res.root[p]? with
  | none => .leave .broken
  | some dext =>
    match dext.rbEntry outer with
    | none => .leave .broken
    | some _ => .again ⟨.outer (dext.rbNext outer) false, s.kept, s.res⟩

/-- A round of the inner loop. The next node is taken before this one may go. -/
def CleanNodes.stepInner (p : Nat × DigestBytes) (s : CleanNodes) (outer inner : Nat × Nat) :
    Loop.Next CleanNodes CleanExit :=
  match s.res.root[p]? with
  | none => .leave .broken
  | some dext =>
    match dext.rbEntry inner with
    | none => .leave .broken
    | some innerExtent =>
      let next := dext.rbNext inner
      if dext.deNumDupes = 2 ∧ s.kept ≠ 0 then .leave (.returned s.res)
      else
        match dext.rbEntry outer with
        | none => .leave .broken
        | some outerExtent =>
          if isDeduped dext.deLen outerExtent innerExtent then
            match s.res.removeExtent innerExtent with
            | none => .leave .broken
            | some (left, res) =>
              if left = 0 then .leave (.freed res) else .again ⟨.inner outer next, s.kept, res⟩
          else .again ⟨.inner outer next, s.kept + 1, s.res⟩

def CleanNodes.step (p : Nat × DigestBytes) (s : CleanNodes) : Loop.Next CleanNodes CleanExit :=
  match s.pc with
  | .outer none _ => .leave (.returned s.res)
  | .outer (some outer) first => s.stepOuter p outer first
  | .inner outer none => s.stepNext p outer
  | .inner outer (some inner) => s.stepInner p outer inner

/-- The start of the walk over the group `p`. -/
def CleanNodes.start (res : ResultsTree) (p : Nat × DigestBytes) : CleanNodes :=
  ⟨.outer ((res.root[p]?.bind DupeExtents.rbFirst).map ResultExtent.key) true, 0, res⟩

/-! ## Nodes and extents -/

namespace DupeExtents

variable {g g' : DupeExtents} {e x : ResultExtent}

theorem rbEntry_key (he : e ∈ g.deExtents) : g.rbEntry e.key = some e := find?_key he

theorem rbNext_key (g : DupeExtents) (e : ResultExtent) :
    g.rbNext e.key = (g.after e).head?.map ResultExtent.key := by
  rw [rbNext, after, List.head?_filter]

/-- The extents behind `e` are given by their membership. -/
theorem after_eq_of_mem {l : List ResultExtent} (hsorted : l.Pairwise ResultExtent.Before)
    (hmem : ∀ x, x ∈ l ↔ x ∈ g.deExtents ∧ e.Before x) : l = g.after e := by
  have hanti : ∀ a b : ResultExtent, a.Before b → b.Before a → a = b := fun a b hab hba =>
    absurd (hab.trans hba) a.not_before_self
  refine List.Perm.eq_of_pairwise (fun a b _ _ => hanti a b) hsorted (after_sorted g e) ?_
  have hnodup : l.Nodup := by
    apply hsorted.imp
    rintro a _ hbefore rfl
    exact a.not_before_self hbefore
  rw [List.perm_ext_iff_of_nodup hnodup (after_nodup g e)]
  intro x
  rw [hmem, mem_after]

/-- What is behind the next extent is the rest of what is behind `e`. -/
theorem after_of_cons {rest : List ResultExtent} (h : g.after e = x :: rest) :
    rest = g.after x := by
  have hsorted := after_sorted g e
  rw [h, List.pairwise_cons] at hsorted
  refine after_eq_of_mem hsorted.2 fun y => ?_
  constructor
  · intro hy
    have hmem : y ∈ g.after e := h ▸ List.mem_cons_of_mem _ hy
    exact ⟨(mem_after.1 hmem).1, hsorted.1 y hy⟩
  · rintro ⟨hy, hbefore⟩
    have hx : e.Before x := (mem_after.1 (h ▸ List.mem_cons_self : x ∈ g.after e)).2
    have hmem : y ∈ g.after e := mem_after.2 ⟨hy, hx.trans hbefore⟩
    rw [h] at hmem
    rcases List.mem_cons.1 hmem with rfl | hrest
    · exact absurd hbefore y.not_before_self
    · exact hrest

/-- Taking an extent out leaves the ones behind it as they are. -/
theorem after_erase (herase : g'.deExtents = g.deExtents.erase x) : g.after x = g'.after x := by
  refine after_eq_of_mem (after_sorted g x) fun y => ?_
  rw [mem_after, herase]
  constructor
  · rintro ⟨hy, hbefore⟩
    refine ⟨(List.mem_erase_of_ne ?_).2 hy, hbefore⟩
    rintro rfl
    exact y.not_before_self hbefore
  · exact fun ⟨hy, hbefore⟩ => ⟨List.mem_of_mem_erase hy, hbefore⟩

end DupeExtents

/-! ## The walk over the nodes is the walk over the extents -/

section Walk

variable {res : ResultsTree} {p : Nat × DigestBytes} {outer : ResultExtent} {exit : CleanExit}

/-- How the walk over the nodes goes on behind the inner loop. -/
def AfterInner (p : Nat × DigestBytes) (outer : ResultExtent) (exit : CleanExit) :
    CleanExit → Prop
  | .goOn kept res => Loop.Ends (CleanNodes.step p) ⟨.inner outer.key none, kept, res⟩ exit
  | early => exit = early

/-- The inner loop over nodes, on what is behind some extent. -/
theorem inner_ends {g : DupeExtents} (hg : res.root[p]? = some g) (houter : outer ∈ g.deExtents)
    {before : ResultExtent} {rest : List ResultExtent} (hrest : g.after before = rest)
    (hother : outer ∉ rest) {kept : Nat}
    (hk : AfterInner p outer exit (cleanInner p outer rest kept res)) :
    Loop.Ends (CleanNodes.step p) ⟨.inner outer.key (rest.head?.map ResultExtent.key), kept, res⟩
      exit := by
  induction rest generalizing res g before kept with
  | nil => exact hk
  | cons inner rest ih =>
    have hin : inner ∈ g.deExtents :=
      (DupeExtents.mem_after.1 (hrest ▸ List.mem_cons_self : inner ∈ g.after before)).1
    have hrest' := DupeExtents.after_of_cons hrest
    rw [List.mem_cons, not_or] at hother
    have hnext : g.rbNext inner.key = rest.head?.map ResultExtent.key := by
      rw [g.rbNext_key, ← hrest']
    have hstep : CleanNodes.step p
        ⟨.inner outer.key ((inner :: rest).head?.map ResultExtent.key), kept, res⟩ =
        CleanNodes.stepInner p ⟨.inner outer.key (some inner.key), kept, res⟩ outer.key
          inner.key := rfl
    have hbody := hstep
    simp only [CleanNodes.stepInner, hg, DupeExtents.rbEntry_key hin,
      DupeExtents.rbEntry_key houter, hnext] at hbody
    simp only [cleanInner, hg] at hk
    split at hk
    · rename_i hearly
      rw [if_pos hearly] at hbody
      obtain rfl : exit = _ := hk
      exact .leave hbody
    · rename_i hlate
      rw [if_neg hlate] at hbody
      split at hk
      · rename_i hdup
        rw [if_pos hdup] at hbody
        obtain ⟨left, res', hremove, hremoved⟩ := ResultsTree.removeExtent_spec hg hin
        simp only [hremove] at hk hbody
        split at hk
        · rename_i hzero
          rw [if_pos hzero] at hbody
          obtain rfl : exit = _ := hk
          exact .leave hbody
        · rename_i hleft
          rw [if_neg hleft] at hbody
          have hmany : 2 < g.deNumDupes := by
            by_contra hfew
            exact hleft (by rw [hremoved.left_eq, if_pos (by omega)])
          obtain ⟨g', hg', herase⟩ := hremoved.stays hmany
          have houter' : outer ∈ g'.deExtents := by
            rw [herase]
            exact (List.mem_erase_of_ne hother.1).2 houter
          have hbehind : g'.after inner = rest := by
            rw [hrest', DupeExtents.after_erase herase]
          exact .again hbody (ih hg' houter' hbehind hother.2 hk)
      · rename_i hkeep
        rw [if_neg hkeep] at hbody
        exact .again hbody (ih hg houter hrest'.symm hother.2 hk)

/-- The outer loop over nodes, wherever the walk over extents is. -/
theorem outer_ends {g : DupeExtents} (hg : res.root[p]? = some g) {s : CleanWalk}
    (h : CleanWalk.Inv p res g s) {fuel : Nat} (hrun : Loop.run (cleanRound p) fuel s = some exit) :
    Loop.Ends (CleanNodes.step p) ⟨.outer (some s.outer.key) s.first, s.kept, s.res⟩ exit := by
  induction fuel generalizing s with
  | zero => cases hrun
  | succ fuel ih =>
    obtain ⟨g', hremains, houter, -, -⟩ := h.here hg
    have hother := DupeExtents.not_mem_after g' s.outer
    have hspec := cleanInner_spec hremains.here houter
      (fun x hx => (DupeExtents.mem_after.1 hx).1) (DupeExtents.cons_after_nodup g' s.outer)
      (if s.first && (decide (s.outer.ePoff = 0) || diskExtentGrew g'.deLen s.outer) then
        s.kept + 1 else s.kept)
    have hhead : CleanNodes.step p ⟨.outer (some s.outer.key) s.first, s.kept, s.res⟩ =
        CleanNodes.stepOuter p ⟨.outer (some s.outer.key) s.first, s.kept, s.res⟩ s.outer.key
          s.first := rfl
    simp only [CleanNodes.stepOuter, hremains.here, DupeExtents.rbEntry_key houter,
      DupeExtents.rbNext_key] at hhead
    refine .again hhead (inner_ends hremains.here houter rfl hother ?_)
    have hround := cleanRound_spec hg h
    have hbody : cleanRound p s = cleanRound p s := rfl
    conv at hbody => rhs; simp only [cleanRound, hremains.here]
    generalize cleanInner p s.outer (g'.after s.outer) _ s.res = left at hspec hbody ⊢
    cases hspec with
    | @goOn kept res' g'' hremains' hmem =>
      have houter' : s.outer ∈ g''.deExtents := by
        refine (hmem s.outer houter).2 fun hself => hother hself.1
      have hnext : CleanNodes.step p ⟨.inner s.outer.key none, kept, res'⟩ =
          CleanNodes.stepNext p ⟨.inner s.outer.key none, kept, res'⟩ s.outer.key := rfl
      simp only [CleanNodes.stepNext, hremains'.here, DupeExtents.rbEntry_key houter',
        DupeExtents.rbNext_key] at hnext
      refine .again hnext ?_
      simp only [hremains'.here, Option.bind_some] at hbody
      cases hhead' : (g''.after s.outer).head? with
      | none =>
        simp only [hhead'] at hbody
        rw [Loop.run_leave hbody] at hrun
        cases hrun
        exact .leave rfl
      | some next =>
        simp only [hhead'] at hbody
        rw [Loop.run_again hbody] at hrun
        rcases hround with ⟨exit', hleave, -⟩ | ⟨s', hagain, hinv, -⟩
        · rw [hbody] at hleave
          cases hleave
        · rw [hbody] at hagain
          cases hagain
          exact ih hinv hrun
    | returned =>
      rw [Loop.run_leave hbody] at hrun
      cases hrun
      rfl
    | freed =>
      rw [Loop.run_leave hbody] at hrun
      cases hrun
      rfl

/-- The run of the outer loop that `cleanDeduped` stands for. -/
theorem cleanDeduped_run {g : DupeExtents} (hg : res.root[p]? = some g) (hne : g.deExtents ≠ []) :
    ∃ first, g.rbFirst = some first ∧
      Loop.run (cleanRound p) (g.deNumDupes + 1) ⟨first, true, 0, res⟩ =
        some (cleanDeduped res p) := by
  obtain ⟨first, hfirst⟩ := DupeExtents.exists_rbFirst hne
  refine ⟨first, hfirst, ?_⟩
  have hend := cleanDeduped_spec hg hne
  have heq : cleanDeduped res p =
      (Loop.run (cleanRound p) (g.deNumDupes + 1) ⟨first, true, 0, res⟩).getD .broken := by
    simp only [cleanDeduped, hg, hfirst]
  cases hrun : Loop.run (cleanRound p) (g.deNumDupes + 1) ⟨first, true, 0, res⟩ with
  | none =>
    rw [heq, hrun] at hend
    cases hend
  | some exit => rw [heq, hrun, Option.getD_some]

/-- The loops over the nodes end as `cleanDeduped` does, so they look at no node that
    is gone. -/
theorem start_ends {g : DupeExtents} (hg : res.root[p]? = some g) (hne : g.deExtents ≠ []) :
    Loop.Ends (CleanNodes.step p) (.start res p) (cleanDeduped res p) := by
  obtain ⟨first, hfirst, hrun⟩ := cleanDeduped_run hg hne
  have hends := outer_ends hg (.first rfl hfirst) hrun
  simpa only [CleanNodes.start, hg, Option.bind_some, hfirst, Option.map_some] using hends

end Walk

/-! ## When the group is freed -/

/-- The whole group shares: one physical offset that is known, and disk extents that
    cover the extents. -/
structure DupeExtents.AllShare (g : DupeExtents) : Prop where
  stale : ∀ x ∈ g.deExtents, Stale g.deLen x
  same : ∀ x ∈ g.deExtents, ∀ y ∈ g.deExtents, x.ePoff = y.ePoff

theorem stale_iff {len : Nat} {x : ResultExtent} : Stale len x ↔ x.ePoff ≠ 0 ∧ len ≤ x.ePlen := by
  simp [Stale, diskExtentGrew]

section Freed

variable {res : ResultsTree} {p : Nat × DigestBytes} {outer : ResultExtent} {g : DupeExtents}

/-- A walk that kept an extent on purpose goes on keeping it. -/
def KeepsOne : CleanExit → Prop
  | .goOn kept _ => kept ≠ 0
  | .freed _ => False
  | _ => True

/-- The inner loop does not free the group once an extent was kept. -/
theorem cleanInner_keepsOne (hg : res.root[p]? = some g) (houter : outer ∈ g.deExtents)
    {rest : List ResultExtent} (hrest : ∀ x ∈ rest, x ∈ g.deExtents)
    (hnodup : (outer :: rest).Nodup) {kept : Nat} (hkept : kept ≠ 0) :
    KeepsOne (cleanInner p outer rest kept res) := by
  induction rest generalizing res g kept with
  | nil => exact hkept
  | cons inner rest ih =>
    have hinner := hrest inner List.mem_cons_self
    have hrest' : ∀ x ∈ rest, x ∈ g.deExtents := fun x hx => hrest x (List.mem_cons_of_mem _ hx)
    rw [List.nodup_cons, List.mem_cons, not_or] at hnodup
    obtain ⟨⟨hne, hother⟩, hnodup⟩ := hnodup
    obtain ⟨hinner', hnodup'⟩ := List.nodup_cons.1 hnodup
    have hnext : (outer :: rest).Nodup := List.nodup_cons.2 ⟨hother, hnodup'⟩
    simp only [cleanInner, hg]
    split
    · trivial
    · rename_i hlate
      split
      · obtain ⟨left, res', hremove, hremoved⟩ := ResultsTree.removeExtent_spec hg hinner
        simp only [hremove]
        -- There are two extents at least, and not two, because one was kept.
        have hmany : 2 < g.deNumDupes := by
          have htwo : 2 ≤ g.deNumDupes := by
            rw [g.numDupes_eq]
            have hpair : [outer, inner].Nodup := by simp [hne]
            refine (List.subperm_of_subset hpair ?_).length_le
            simpa using ⟨houter, hinner⟩
          have hnot : g.deNumDupes ≠ 2 := fun heq => hlate ⟨heq, hkept⟩
          omega
        obtain ⟨g', hg', herase⟩ := hremoved.stays hmany
        rw [if_neg (by rw [hremoved.left_eq, if_neg (by omega)]; omega)]
        refine ih hg' ?_ (fun x hx => ?_) hnext hkept
        · rw [herase]
          exact (List.mem_erase_of_ne hne).2 houter
        · rw [herase]
          refine (List.mem_erase_of_ne ?_).2 (hrest' x hx)
          rintro rfl
          exact hinner' hx
      · exact ih hg houter hrest' hnext (Nat.succ_ne_zero _)

/-- Nor does a round of the outer loop, when an extent was kept before or the first
    one may not be dropped. -/
theorem cleanRound_keepsOne (hg : res.root[p]? = some g) {s : CleanWalk}
    (h : CleanWalk.Inv p res g s)
    (hkeep : s.kept ≠ 0 ∨ s.first = true ∧ ¬ Stale g.deLen s.outer) :
    (∀ s', cleanRound p s = .again s' → s'.kept ≠ 0) ∧
      ∀ exit, cleanRound p s = .leave exit → KeepsOne exit := by
  obtain ⟨g', hremains, houter, -, -⟩ := h.here hg
  have hlen : g'.deLen = g.deLen := by
    have hkey := (s.res.keyed p g' hremains.here).trans (res.keyed p g hg).symm
    exact congrArg Prod.fst hkey
  have hkept : (if s.first && (decide (s.outer.ePoff = 0) || diskExtentGrew g'.deLen s.outer) then
      s.kept + 1 else s.kept) ≠ 0 := by
    rcases hkeep with hkept | ⟨hfirst, hstale⟩
    · split <;> omega
    · rw [if_pos]
      · exact Nat.succ_ne_zero _
      · rw [stale_iff, not_and_or, not_not, Nat.not_le] at hstale
        simpa [hfirst, hlen, diskExtentGrew] using hstale
  have hinner := cleanInner_keepsOne hremains.here houter
    (fun x hx => (DupeExtents.mem_after.1 hx).1)
    (DupeExtents.cons_after_nodup g' s.outer) hkept
  simp only [cleanRound, hremains.here]
  generalize cleanInner p s.outer (g'.after s.outer) _ s.res = exit at hinner ⊢
  cases exit with
  | goOn kept res' =>
    simp only
    split
    · refine ⟨fun s' hs' => (by cases hs'), fun exit hexit => ?_⟩
      cases hexit
      trivial
    · refine ⟨fun s' hs' => ?_, fun exit hexit => (by cases hexit)⟩
      cases hs'
      exact hinner
  | returned res' =>
    refine ⟨fun s' hs' => (by cases hs'), fun exit hexit => ?_⟩
    cases hexit
    trivial
  | freed res' => exact hinner.elim
  | broken =>
    refine ⟨fun s' hs' => (by cases hs'), fun exit hexit => ?_⟩
    cases hexit
    trivial

/-- A group whose first extent may not be dropped is not freed. -/
theorem cleanDeduped_keepsOne (hg : res.root[p]? = some g) {first : ResultExtent}
    (hfirst : g.rbFirst = some first) (hkeep : ¬ Stale g.deLen first) :
    KeepsOne (cleanDeduped res p) := by
  have hmem := DupeExtents.rbFirst_mem hfirst
  obtain ⟨first', hfirst', hrun⟩ := cleanDeduped_run hg (List.ne_nil_of_mem hmem)
  obtain rfl := Option.some.inj (hfirst.symm.trans hfirst')
  refine Loop.run_partial (fun s => CleanWalk.Inv p res g s ∧
    (s.kept ≠ 0 ∨ s.first = true ∧ ¬ Stale g.deLen s.outer)) ?_ ?_ _ _
    ⟨.first rfl hfirst, .inr ⟨rfl, hkeep⟩⟩ hrun
  · rintro s s' ⟨hinv, hone⟩ hagain
    refine ⟨?_, .inl ((cleanRound_keepsOne hg hinv hone).1 s' hagain)⟩
    rcases cleanRound_spec hg hinv with ⟨exit, hleave, -⟩ | ⟨s'', hagain', hinv', -⟩
    · rw [hagain] at hleave
      cases hleave
    · rw [hagain] at hagain'
      cases hagain'
      exact hinv'
  · rintro s exit ⟨hinv, hone⟩ hleave
    exact (cleanRound_keepsOne hg hinv hone).2 exit hleave

/-- The inner loop frees a group all of which shares with its first extent. -/
theorem cleanInner_freed (hg : res.root[p]? = some g) {rest : List ResultExtent}
    (hrest : ∀ x ∈ rest, x ∈ g.deExtents ∧ isDeduped p.1 outer x = true) (hnodup : rest.Nodup)
    (hcount : g.deNumDupes = rest.length + 1) (hne : rest ≠ []) :
    ∃ res', cleanInner p outer rest 0 res = .freed res' := by
  induction rest generalizing res g with
  | nil => exact absurd rfl hne
  | cons inner rest ih =>
    obtain ⟨hinner, hdup⟩ := hrest inner List.mem_cons_self
    obtain ⟨hinner', hnodup'⟩ := List.nodup_cons.1 hnodup
    have hlen : g.deLen = p.1 := congrArg Prod.fst (res.keyed p g hg)
    obtain ⟨left, res', hremove, hremoved⟩ := ResultsTree.removeExtent_spec hg hinner
    simp only [cleanInner, hg, hlen, hdup, hremove, ne_eq, not_true_eq_false, and_false, if_false,
      if_true]
    rw [List.length_cons] at hcount
    by_cases hlast : rest = []
    · rw [if_pos (by rw [hremoved.left_eq, hcount, hlast]; rfl)]
      exact ⟨res', rfl⟩
    · have hlong := List.length_pos_iff.2 hlast
      obtain ⟨g', hg', herase⟩ := hremoved.stays (by omega)
      rw [if_neg (by rw [hremoved.left_eq, if_neg (by omega)]; omega)]
      refine ih hg' (fun x hx => ?_) hnodup' ?_ hlast
      · obtain ⟨hx', hdup'⟩ := hrest x (List.mem_cons_of_mem _ hx)
        refine ⟨?_, hdup'⟩
        rw [herase]
        refine (List.mem_erase_of_ne ?_).2 hx'
        rintro rfl
        exact hinner' hx
      · rw [g'.numDupes_eq, herase, List.length_erase_of_mem hinner, ← g.numDupes_eq, hcount]
        omega

/-- A group that shares is freed in the first round. -/
theorem cleanDeduped_freed (hg : res.root[p]? = some g) (hn : 2 ≤ g.deNumDupes)
    (hshare : g.AllShare) : ∃ res', cleanDeduped res p = .freed res' := by
  have hsome := g.ne_nil_of_two hn
  obtain ⟨first, hfirst, hrun⟩ := cleanDeduped_run hg hsome
  have hmem := DupeExtents.rbFirst_mem hfirst
  have hlen : g.deLen = p.1 := congrArg Prod.fst (res.keyed p g hg)
  have hstale := stale_iff.1 (hshare.stale first hmem)
  -- All but the first extent lie behind it.
  have hperm : g.deExtents.Perm (first :: g.after first) := by
    rw [List.perm_ext_iff_of_nodup (List.Nodup.of_map _ g.keys_nodup)
      (DupeExtents.cons_after_nodup g first)]
    intro x
    rw [List.mem_cons, DupeExtents.mem_after]
    constructor
    · intro hx
      exact (DupeExtents.rbFirst_least hfirst hx).imp_right fun hbefore => ⟨hx, hbefore⟩
    · rintro (rfl | ⟨hx, -⟩)
      · exact hmem
      · exact hx
  have hcount := hperm.length_eq
  rw [List.length_cons, ← g.numDupes_eq] at hcount
  obtain ⟨res', hinner⟩ := @cleanInner_freed res p first g hg (g.after first)
    (fun x hx => by
      have hx' := (DupeExtents.mem_after.1 hx).1
      rw [← hlen]
      exact ⟨hx', isDeduped_iff.2 ⟨hshare.stale x hx', hshare.same first hmem x hx'⟩⟩)
    (DupeExtents.after_nodup g first) hcount (List.length_pos_iff.1 (by omega))
  refine ⟨res', ?_⟩
  have hround : cleanRound p ⟨first, true, 0, res⟩ = .leave (.freed res') := by
    have hgrew : diskExtentGrew g.deLen first = false := (hshare.stale first hmem).2
    simp [cleanRound, hg, hstale.1, hgrew, hinner]
  rw [Loop.run_leave hround] at hrun
  exact (Option.some.inj hrun).symm

end Freed

/-! ## What is dropped -/

/-- An extent that repeats has an earlier one that does not, with the same offset. -/
theorem DupeExtents.Repeats.exists_first {g : DupeExtents} {x : ResultExtent}
    (h : g.Repeats x) :
    ∃ y ∈ g.deExtents, ¬ g.Repeats y ∧ y.Before x ∧ y.ePoff = x.ePoff := by
  obtain ⟨-, z, hz, hzx, hpoff⟩ := h
  obtain ⟨y, hfind⟩ : ∃ y, g.inOrder.find? (fun y => y.ePoff = x.ePoff) = some y := by
    rw [← Option.isSome_iff_exists, List.find?_isSome]
    exact ⟨z, mem_inOrder.2 hz, by simp [hpoff]⟩
  have hy : y ∈ g.deExtents := mem_inOrder.1 (List.mem_of_find?_eq_some hfind)
  obtain ⟨hsame, before, after, hsplit, hbefore⟩ := List.find?_eq_some_iff_append.1 hfind
  have hsame : y.ePoff = x.ePoff := by simpa using hsame
  have hsorted := inOrder_sorted g
  rw [hsplit, List.pairwise_append, List.pairwise_cons] at hsorted
  -- Everything with that offset is `y` or lies behind it.
  have hleast : ∀ u ∈ g.deExtents, u.ePoff = x.ePoff → u = y ∨ y.Before u := by
    intro u hu hupoff
    have hmem := mem_inOrder.2 hu
    rw [hsplit, List.mem_append, List.mem_cons] at hmem
    rcases hmem with hfront | heq | hbehind
    · have hno := hbefore u hfront
      simp [hupoff] at hno
    · exact .inl heq
    · exact .inr (hsorted.2.1.1 u hbehind)
  refine ⟨y, hy, ?_, ?_, hsame⟩
  · rintro ⟨-, u, hu, huy, hupoff⟩
    rcases hleast u hu (hupoff.trans hsame) with rfl | hlt
    · exact u.not_before_self huy
    · exact u.not_before_self (huy.trans hlt)
  · rcases hleast z hz hpoff with rfl | hlt
    · exact hzx
    · exact hlt.trans hzx

/-- What `clean_deduped` may do to a group that it does not free. -/
structure DropsShared (g g' : DupeExtents) : Prop where
  sublist : g'.deExtents.Sublist g.deExtents
  two : 2 ≤ g'.deExtents.length
  poffs : ∀ off, (∃ x ∈ g'.deExtents, x.ePoff = off) ↔ ∃ x ∈ g.deExtents, x.ePoff = off
  dropped : ∀ x ∈ g.deExtents, x ∉ g'.deExtents →
    x.ePoff ≠ 0 ∧ g.deLen ≤ x.ePlen ∧ ∃ y ∈ g'.deExtents, y.Before x ∧ y.ePoff = x.ePoff

section Drops

variable {res res' : ResultsTree} {p : Nat × DigestBytes} {g : DupeExtents}

/-- Only a group that shares as a whole is freed. -/
theorem allShare_of_freed (hg : res.root[p]? = some g) (hsome : g.deExtents ≠ [])
    (hclean : cleanDeduped res p = .freed res') : g.AllShare ∧ res'.root[p]? = none := by
  have hend := cleanDeduped_spec hg hsome
  obtain ⟨first, hfirst⟩ := DupeExtents.exists_rbFirst hsome
  have hkeeps := cleanDeduped_keepsOne hg hfirst
  rw [hclean] at hend hkeeps
  cases hend with
  | freed hgone hrepeats hsame =>
    refine ⟨⟨fun x hx => ?_, hsame⟩, hgone⟩
    have hno : ¬ g.Repeats first := by
      rintro ⟨-, y, hy, hbefore, -⟩
      rcases DupeExtents.rbFirst_least hfirst hy with rfl | hlt
      · exact y.not_before_self hbefore
      · exact y.not_before_self (hbefore.trans hlt)
    by_cases hx' : g.Repeats x
    · exact hx'.1
    · -- Only the first extent does not repeat, and it was not kept on purpose.
      obtain rfl := not_imp_comm.1 (hrepeats x hx) hx'
      obtain rfl := not_imp_comm.1 (hrepeats first (DupeExtents.rbFirst_mem hfirst)) hno
      exact not_imp_comm.1 hkeeps id

/-- A group that does not share as a whole is left. -/
theorem returned_of_not_allShare (hg : res.root[p]? = some g) (hsome : g.deExtents ≠ [])
    (hnot : ¬ g.AllShare) : ∃ res', cleanDeduped res p = .returned res' := by
  have hend := cleanDeduped_spec hg hsome
  have hfreed : ∀ res', cleanDeduped res p = .freed res' → g.AllShare := fun _ hclean =>
    (allShare_of_freed hg hsome hclean).1
  generalize cleanDeduped res p = exit at hend hfreed ⊢
  cases hend with
  | freed => exact absurd (hfreed _ rfl) hnot
  | returned => exact ⟨_, rfl⟩

/-- Of a group that is left only extents are dropped that share with one in front. -/
theorem dropsShared_of_returned (hg : res.root[p]? = some g) (hn : 2 ≤ g.deNumDupes)
    (hclean : cleanDeduped res p = .returned res') :
    ∃ g', res'.root[p]? = some g' ∧ DropsShared g g' := by
  have hsome := g.ne_nil_of_two hn
  have hend := cleanDeduped_spec hg hsome
  rw [hclean] at hend
  cases hend with
  | @returned _ g' hremains hdropped _ =>
    have hstays : ∀ y ∈ g.deExtents, ¬ g.Repeats y → y ∈ g'.deExtents := fun y hy hno =>
      not_not.1 (mt (hdropped y hy) hno)
    refine ⟨g', hremains.here, hremains.sublist, ?_, fun off => ⟨?_, ?_⟩, fun x hx hgone => ?_⟩
    · rw [← g'.numDupes_eq]
      exact hremains.two hn
    · rintro ⟨x, hx, rfl⟩
      exact ⟨x, hremains.sublist.subset hx, rfl⟩
    · rintro ⟨x, hx, rfl⟩
      by_cases hstay : x ∈ g'.deExtents
      · exact ⟨x, hstay, rfl⟩
      · obtain ⟨y, hy, hno, -, hpoff⟩ := (hdropped x hx hstay).exists_first
        exact ⟨y, hstays y hy hno, hpoff⟩
    · have hrepeats := hdropped x hx hgone
      obtain ⟨hpoff, hplen⟩ := stale_iff.1 hrepeats.1
      obtain ⟨y, hy, hno, hbefore, hsame⟩ := hrepeats.exists_first
      exact ⟨hpoff, hplen, y, hstays y hy hno, hbefore, hsame⟩

end Drops

/-- `clean_deduped` frees a group exactly when all of it shares. Of every other group
    at least two extents stay, with all the offsets that were there, and an extent that
    is dropped shares with one that stays in front of it. The loops over the nodes end,
    and look at no node that is gone. -/
theorem cleanDeduped_drops {res : ResultsTree} {p : Nat × DigestBytes} {g : DupeExtents}
    (hg : res.root[p]? = some g) (hn : 2 ≤ g.deNumDupes) :
    Loop.Ends (CleanNodes.step p) (.start res p) (cleanDeduped res p) ∧
    ((g.AllShare ∧ ∃ res', cleanDeduped res p = .freed res' ∧ res'.root[p]? = none) ∨
      (¬ g.AllShare ∧ ∃ res' g', cleanDeduped res p = .returned res' ∧
        res'.root[p]? = some g' ∧ DropsShared g g')) := by
  have hsome := g.ne_nil_of_two hn
  refine ⟨start_ends hg hsome, ?_⟩
  by_cases hshare : g.AllShare
  · obtain ⟨res', hfreed⟩ := cleanDeduped_freed hg hn hshare
    exact .inl ⟨hshare, res', hfreed, (allShare_of_freed hg hsome hfreed).2⟩
  · obtain ⟨res', hreturned⟩ := returned_of_not_allShare hg hsome hshare
    obtain ⟨g', hg', hdrops⟩ := dropsShared_of_returned hg hn hreturned
    exact .inr ⟨hshare, res', g', hreturned, hg', hdrops⟩

/-- Of three pages the second shares with the first, and it is dropped. -/
theorem cleanDeduped_drops_pages :
    ∃ g, (pagesAt [8192, 8192, 16384]).root[pageKey]? = some g ∧
      ∃ res' g', cleanDeduped (pagesAt [8192, 8192, 16384]) pageKey = .returned res' ∧
        res'.root[pageKey]? = some g' ∧ DropsShared g g' := by
  have hgroup : (pagesAt [8192, 8192, 16384]).root[pageKey]?.map (fun g =>
      decide (2 ≤ g.deNumDupes ∧ ∃ x ∈ g.deExtents, ∃ y ∈ g.deExtents, x.ePoff ≠ y.ePoff)) =
      some true := by
    decide +kernel
  obtain ⟨g, hg, hall⟩ := Option.map_eq_some_iff.1 hgroup
  obtain ⟨htwo, x, hx, y, hy, hne⟩ := of_decide_eq_true hall
  obtain ⟨-, ⟨hshare, -⟩ | ⟨-, hdrops⟩⟩ := cleanDeduped_drops hg htwo
  · exact absurd (hshare.same x hx y hy) hne
  · exact ⟨g, hg, hdrops⟩

end Duperemove
