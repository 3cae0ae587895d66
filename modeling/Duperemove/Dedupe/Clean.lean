-- SUMMARY: `clean_deduped`: which extents of a group are dropped because they share with another one already.
import Duperemove.ResultsTree.Invariant

/-!
# Cleaning a group

In front of a pass, `clean_deduped` walks over the extents of a group in the order
of its tree, and drops each one that has the physical offset of an earlier one.
Both loops take the next node before the current one may go away. A walk that is
down to two extents leaves early when one of them was kept on purpose, and a walk
that drops all but one frees the group.
-/

namespace Duperemove

/-! ## The walk -/

namespace DupeExtents

/-- The extents in the order of the tree. -/
def inOrder (dext : DupeExtents) : List ResultExtent :=
  dext.deExtentsRoot.toList.filterMap fun k => dext.deExtents.find? fun e => e.key = k

/-- The extents behind `e`, as `rb_next` comes to them. -/
def after (dext : DupeExtents) (e : ResultExtent) : List ResultExtent :=
  dext.inOrder.filter fun x => pairCmp e.key x.key = .lt

end DupeExtents

/-- `disk_extent_grew`, in a group of extents of length `len`. -/
def diskExtentGrew (len : Nat) (e : ResultExtent) : Bool := decide (e.ePlen < len)

/-- The condition under which the inner loop removes an extent. -/
def isDeduped (len : Nat) (outer inner : ResultExtent) : Bool :=
  decide (inner.ePoff ≠ 0) && decide (outer.ePoff = inner.ePoff) && !diskExtentGrew len inner

/-- How a loop of `clean_deduped` is left: at its end, by a `return`, with the group
    freed, or by an abort. -/
inductive CleanExit where
  | goOn (kept : Nat) (res : ResultsTree)
  | returned (res : ResultsTree)
  | freed (res : ResultsTree)
  | broken

/-- The inner loop, over the extents behind `outer`. -/
def cleanInner (p : Nat × DigestBytes) (outer : ResultExtent) :
    List ResultExtent → Nat → ResultsTree → CleanExit
  | [], kept, res => .goOn kept res
  | inner :: rest, kept, res =>
    match res.root[p]? with
    | none => .broken
    | some dext =>
      if dext.deNumDupes = 2 ∧ kept ≠ 0 then .returned res
      else if isDeduped dext.deLen outer inner then
        match res.removeExtent inner with
        | none => .broken
        | some (left, res) => if left = 0 then .freed res else cleanInner p outer rest kept res
      else cleanInner p outer rest (kept + 1) res

/-- The variables of the outer loop. -/
structure CleanWalk where
  outer : ResultExtent
  first : Bool
  kept : Nat
  res : ResultsTree

/-- One round of the outer loop. -/
def cleanRound (p : Nat × DigestBytes) (s : CleanWalk) : Loop.Next CleanWalk CleanExit :=
  match s.res.root[p]? with
  | none => .leave .broken
  | some dext =>
    let kept :=
      if s.first && (decide (s.outer.ePoff = 0) || diskExtentGrew dext.deLen s.outer) then s.kept + 1
      else s.kept
    match cleanInner p s.outer (dext.after s.outer) kept s.res with
    | .goOn kept res =>
      match res.root[p]?.bind fun dext => (dext.after s.outer).head? with
      | none => .leave (.returned res)
      | some outer => .again ⟨outer, false, kept, res⟩
    | exit => .leave exit

/-- `clean_deduped` on the group `p`. -/
def cleanDeduped (res : ResultsTree) (p : Nat × DigestBytes) : CleanExit :=
  match res.root[p]? with
  | none => .broken
  | some dext =>
    match dext.rbFirst with
    | none => .returned res
    | some outer =>
      (Loop.run (cleanRound p) (dext.deNumDupes + 1) ⟨outer, true, 0, res⟩).getD .broken

/-! ## The order of the tree -/

/-- `x` is found to the left of `y`. -/
def ResultExtent.Before (x y : ResultExtent) : Prop := pairCmp x.key y.key = .lt

namespace ResultExtent

theorem Before.trans {x y z : ResultExtent} (h : x.Before y) (h' : y.Before z) : x.Before z :=
  Std.TransCmp.lt_trans h h'

theorem not_before_self (x : ResultExtent) : ¬ x.Before x := by
  have hself : pairCmp x.key x.key = .eq := Std.ReflCmp.compare_self
  unfold Before
  rw [hself]
  decide

theorem before_trichotomy (x y : ResultExtent) : x.Before y ∨ x.key = y.key ∨ y.Before x := by
  unfold Before
  cases h : pairCmp x.key y.key with
  | lt => exact .inl rfl
  | eq => exact .inr (.inl (Std.LawfulEqCmp.eq_of_compare h))
  | gt => exact .inr (.inr (Std.OrientedCmp.gt_iff_lt.1 h))

end ResultExtent

namespace DupeExtents

variable {g : DupeExtents} {e x : ResultExtent}

theorem inOrder_map_key (g : DupeExtents) :
    g.inOrder.map ResultExtent.key = g.deExtentsRoot.toList := by
  have hall : ∀ k ∈ g.deExtentsRoot.toList, ∃ e ∈ g.deExtents, e.key = k := fun k hk =>
    (g.mem_root k).1 (Std.TreeSet.mem_toList.1 hk)
  unfold inOrder
  generalize g.deExtentsRoot.toList = ks at hall
  induction ks with
  | nil => rfl
  | cons k ks ih =>
    obtain ⟨e, he, rfl⟩ := hall k List.mem_cons_self
    have hfind := find?_key he
    simp only [List.filterMap_cons, hfind, List.map_cons]
    rw [ih fun k hk => hall k (List.mem_cons_of_mem _ hk)]

theorem mem_inOrder : x ∈ g.inOrder ↔ x ∈ g.deExtents := by
  constructor
  · intro hx
    obtain ⟨k, -, hfind⟩ := List.mem_filterMap.1 hx
    exact List.mem_of_find?_eq_some hfind
  · intro hx
    refine List.mem_filterMap.2 ⟨x.key, ?_, find?_key hx⟩
    exact Std.TreeSet.mem_toList.2 ((g.mem_root _).2 ⟨x, hx, rfl⟩)

theorem inOrder_sorted (g : DupeExtents) : g.inOrder.Pairwise ResultExtent.Before := by
  have hsorted := Std.TreeSet.ordered_toList (t := g.deExtentsRoot)
  rw [← inOrder_map_key, List.pairwise_map] at hsorted
  exact hsorted

theorem mem_after : x ∈ g.after e ↔ x ∈ g.deExtents ∧ e.Before x := by
  rw [after, List.mem_filter, mem_inOrder, decide_eq_true_eq]
  rfl

theorem after_sorted (g : DupeExtents) (e : ResultExtent) :
    (g.after e).Pairwise ResultExtent.Before := (inOrder_sorted g).filter _

theorem after_nodup (g : DupeExtents) (e : ResultExtent) : (g.after e).Nodup := by
  apply (after_sorted g e).imp
  rintro a _ hbefore rfl
  exact ResultExtent.not_before_self a hbefore

theorem ne_nil_of_two (g : DupeExtents) (hn : 2 ≤ g.deNumDupes) : g.deExtents ≠ [] := by
  rw [g.numDupes_eq] at hn
  exact List.length_pos_iff.1 (by omega)

theorem not_mem_after (g : DupeExtents) (e : ResultExtent) : e ∉ g.after e := fun hself =>
  e.not_before_self (mem_after.1 hself).2

/-- The walk on from an extent meets no extent twice, and not the one it is at. -/
theorem cons_after_nodup (g : DupeExtents) (e : ResultExtent) : (e :: g.after e).Nodup :=
  List.nodup_cons.2 ⟨not_mem_after g e, after_nodup g e⟩

/-- The next extent has none between it and `e`. -/
theorem eq_or_before_of_head {next : ResultExtent} (hnext : (g.after e).head? = some next)
    (hx : x ∈ g.deExtents) (hbefore : e.Before x) : x = next ∨ next.Before x := by
  have hmem : x ∈ g.after e := mem_after.2 ⟨hx, hbefore⟩
  have hsorted := after_sorted g e
  cases hlist : g.after e with
  | nil =>
    rw [hlist] at hmem
    cases hmem
  | cons a rest =>
    rw [hlist] at hmem hnext hsorted
    cases hnext
    rcases List.mem_cons.1 hmem with rfl | hrest
    · exact .inl rfl
    · exact .inr ((List.pairwise_cons.1 hsorted).1 x hrest)

/-- The first extent has none in front of it. -/
theorem rbFirst_least (hfirst : g.rbFirst = some e) (hx : x ∈ g.deExtents) :
    x = e ∨ e.Before x := by
  obtain ⟨k, hk, hfind⟩ := Option.bind_eq_some_iff.1 hfirst
  rw [← Std.TreeSet.min?_eq_head?_toList] at hk
  have hkey := List.find?_some hfind
  simp only [decide_eq_true_eq] at hkey
  have hleast := (Std.TreeSet.min?_eq_some_iff_mem_and_forall.1 hk).2 x.key
    ((g.mem_root _).2 ⟨x, hx, rfl⟩)
  rw [← hkey] at hleast
  rcases e.before_trichotomy x with hlt | heq | hgt
  · exact .inr hlt
  · exact .inl (List.inj_on_of_nodup_map g.keys_nodup hx (List.mem_of_find?_eq_some hfind)
      heq.symm)
  · unfold ResultExtent.Before at hgt
    rw [Std.OrientedCmp.gt_iff_lt.symm] at hgt
    rw [hgt] at hleast
    cases hleast

end DupeExtents

/-! ## The inner loop -/

/-- An extent that may be dropped: its offset is known and its disk extent covers
    it. -/
def Stale (len : Nat) (x : ResultExtent) : Prop := x.ePoff ≠ 0 ∧ diskExtentGrew len x = false

theorem isDeduped_iff {len : Nat} {outer inner : ResultExtent} :
    isDeduped len outer inner = true ↔ Stale len inner ∧ outer.ePoff = inner.ePoff := by
  simp only [isDeduped, Stale, Bool.and_eq_true, decide_eq_true_eq, Bool.not_eq_true']
  tauto

/-- What is left of a group: fewer extents, in the order they had. -/
structure Remains (res : ResultsTree) (p : Nat × DigestBytes) (g : DupeExtents)
    (g' : DupeExtents) : Prop where
  here : res.root[p]? = some g'
  sublist : g'.deExtents.Sublist g.deExtents
  two : 2 ≤ g.deNumDupes → 2 ≤ g'.deNumDupes

theorem mem_pair_of_length_le {l : List ResultExtent} {a b x : ResultExtent} (hlen : l.length ≤ 2)
    (hab : a ≠ b) (ha : a ∈ l) (hb : b ∈ l) (hx : x ∈ l) : x = a ∨ x = b := by
  match l, hlen with
  | [], _ => cases ha
  | [u], _ =>
    rw [List.mem_singleton] at ha hb
    exact absurd (ha.trans hb.symm) hab
  | [u, v], _ =>
    simp only [List.mem_cons, List.not_mem_nil, or_false] at ha hb hx
    rcases ha with rfl | rfl <;> rcases hb with rfl | rfl <;> tauto

section Inner

variable {res : ResultsTree} {p : Nat × DigestBytes} {outer : ResultExtent}

/-- The three ways out of the inner loop: it drops what shares with `outer`; or it
    returns with `outer` and one more extent left, and the dropped ones share with
    `outer`; or it frees the group, all of which shares with `outer`. In the last two
    cases the whole group but `outer` lay ahead of the loop. -/
inductive InnerEnd (p : Nat × DigestBytes) (outer : ResultExtent) (g : DupeExtents)
    (rest : List ResultExtent) : CleanExit → Prop where
  | goOn {kept : Nat} {res' : ResultsTree} {g' : DupeExtents} (hremains : Remains res' p g g')
      (hmem : ∀ x ∈ g.deExtents, x ∈ g'.deExtents ↔
        ¬ (x ∈ rest ∧ isDeduped p.1 outer x = true)) : InnerEnd p outer g rest (.goOn kept res')
  | returned {res' : ResultsTree} {g' : DupeExtents} {last : ResultExtent}
      (hall : ∀ x ∈ g.deExtents, x ≠ outer → x ∈ rest) (hlast : last ∈ rest)
      (hremains : Remains res' p g g')
      (hmem : ∀ x ∈ g.deExtents, x ∈ g'.deExtents ↔ x = outer ∨ x = last)
      (hshare : ∀ x ∈ g.deExtents, x ≠ outer → x ≠ last → isDeduped p.1 outer x = true) :
      InnerEnd p outer g rest (.returned res')
  | freed {res' : ResultsTree} (hall : ∀ x ∈ g.deExtents, x ≠ outer → x ∈ rest)
      (hgone : res'.root[p]? = none)
      (hshare : ∀ x ∈ g.deExtents, x ≠ outer → isDeduped p.1 outer x = true) :
      InnerEnd p outer g rest (.freed res')

/-- An extent that the inner loop keeps. -/
theorem InnerEnd.keep {g : DupeExtents} {inner : ResultExtent} {rest : List ResultExtent}
    {exit : CleanExit} (h : InnerEnd p outer g rest exit)
    (hnot : isDeduped p.1 outer inner ≠ true) : InnerEnd p outer g (inner :: rest) exit := by
  cases h with
  | goOn hremains hmem =>
    refine .goOn hremains fun x hx => (hmem x hx).trans (not_congr ?_)
    rw [List.mem_cons]
    constructor
    · exact fun h => ⟨.inr h.1, h.2⟩
    · rintro ⟨rfl | hrest, hdup⟩
      · exact absurd hdup hnot
      · exact ⟨hrest, hdup⟩
  | returned hall hlast hremains hmem hshare =>
    refine .returned ?_ (List.mem_cons_of_mem _ hlast) hremains hmem hshare
    exact fun x hx hne => List.mem_cons_of_mem _ (hall x hx hne)
  | freed hall hgone hshare =>
    exact .freed (fun x hx hne => List.mem_cons_of_mem _ (hall x hx hne)) hgone hshare

/-- An extent that the inner loop drops. -/
theorem InnerEnd.drop {g g₁ : DupeExtents} {inner : ResultExtent} {rest : List ResultExtent}
    {exit : CleanExit} (h : InnerEnd p outer g₁ rest exit) (hinner : inner ∈ g.deExtents)
    (hdup : isDeduped p.1 outer inner = true) (hother : inner ∉ rest) (houter : inner ≠ outer)
    (herase : g₁.deExtents = g.deExtents.erase inner) (hthree : 2 < g.deNumDupes) :
    InnerEnd p outer g (inner :: rest) exit := by
  have hnodup : g.deExtents.Nodup := List.Nodup.of_map _ g.keys_nodup
  have hmem₁ : ∀ x, x ∈ g₁.deExtents ↔ x ≠ inner ∧ x ∈ g.deExtents := by
    intro x
    rw [herase, hnodup.mem_erase_iff]
  have htwo : 2 ≤ g₁.deNumDupes := by
    rw [g₁.numDupes_eq, herase, List.length_erase_of_mem hinner, ← g.numDupes_eq]
    omega
  have hsub : g₁.deExtents.Sublist g.deExtents := by
    rw [herase]
    exact List.erase_sublist
  have hahead : (∀ x ∈ g₁.deExtents, x ≠ outer → x ∈ rest) →
      ∀ x ∈ g.deExtents, x ≠ outer → x ∈ inner :: rest := by
    intro hall x hx hne
    by_cases heq : x = inner
    · exact heq ▸ List.mem_cons_self
    · exact List.mem_cons_of_mem _ (hall x ((hmem₁ x).2 ⟨heq, hx⟩) hne)
  cases h with
  | goOn hremains hmem =>
    refine .goOn ⟨hremains.here, hremains.sublist.trans hsub, fun _ => hremains.two htwo⟩ ?_
    intro x hx
    by_cases heq : x = inner
    · subst heq
      constructor
      · intro hx'
        exact absurd rfl ((hmem₁ x).1 (hremains.sublist.subset hx')).1
      · exact fun hnot => absurd ⟨List.mem_cons_self, hdup⟩ hnot
    · rw [hmem x ((hmem₁ x).2 ⟨heq, hx⟩), List.mem_cons, or_iff_right heq]
  | returned hall hlast hremains hmem hshare =>
    refine .returned (hahead hall) (List.mem_cons_of_mem _ hlast)
      ⟨hremains.here, hremains.sublist.trans hsub, fun _ => hremains.two htwo⟩ ?_ ?_
    · intro x hx
      by_cases heq : x = inner
      · subst heq
        constructor
        · intro hx'
          exact absurd rfl ((hmem₁ x).1 (hremains.sublist.subset hx')).1
        · rintro (h | h)
          · exact absurd h houter
          · exact absurd (h ▸ hlast) hother
      · exact hmem x ((hmem₁ x).2 ⟨heq, hx⟩)
    · intro x hx hne hne'
      by_cases heq : x = inner
      · exact heq ▸ hdup
      · exact hshare x ((hmem₁ x).2 ⟨heq, hx⟩) hne hne'
  | freed hall hgone hshare =>
    refine .freed (hahead hall) hgone fun x hx hne => ?_
    by_cases heq : x = inner
    · exact heq ▸ hdup
    · exact hshare x ((hmem₁ x).2 ⟨heq, hx⟩) hne

/-- The inner loop ends in one of the three ways. -/
theorem cleanInner_spec {g : DupeExtents} (hg : res.root[p]? = some g)
    (houter : outer ∈ g.deExtents) {rest : List ResultExtent} (hrest : ∀ x ∈ rest, x ∈ g.deExtents)
    (hnodup : (outer :: rest).Nodup) (kept : Nat) :
    InnerEnd p outer g rest (cleanInner p outer rest kept res) := by
  induction rest generalizing res g kept with
  | nil => exact .goOn ⟨hg, .refl _, id⟩ fun x hx => by simp [hx]
  | cons inner rest ih =>
    have hinner := hrest inner List.mem_cons_self
    obtain ⟨houter', hnodup'⟩ := List.nodup_cons.1 hnodup
    rw [List.mem_cons, not_or] at houter'
    obtain ⟨hinner', hnodup'⟩ := List.nodup_cons.1 hnodup'
    have hnext : (outer :: rest).Nodup := List.nodup_cons.2 ⟨houter'.2, hnodup'⟩
    have hlen : g.deLen = p.1 := congrArg Prod.fst (res.keyed p g hg)
    have hpair : g.deNumDupes ≤ 2 → ∀ x ∈ g.deExtents, x = outer ∨ x = inner := by
      intro hfew x hx
      rw [g.numDupes_eq] at hfew
      exact mem_pair_of_length_le hfew houter'.1 houter hinner hx
    have hahead : g.deNumDupes ≤ 2 → ∀ x ∈ g.deExtents, x ≠ outer → x ∈ inner :: rest := by
      intro hfew x hx hne
      rw [(hpair hfew x hx).resolve_left hne]
      exact List.mem_cons_self
    simp only [cleanInner, hg, hlen]
    split
    · rename_i hearly
      have honly := hpair (by omega)
      refine .returned (hahead (by omega)) List.mem_cons_self ⟨hg, .refl _, id⟩ ?_ ?_
      · exact fun x hx => ⟨fun _ => honly x hx, fun _ => hx⟩
      · intro x hx hne hne'
        rcases honly x hx with h | h
        · exact absurd h hne
        · exact absurd h hne'
    · split
      · rename_i hdup
        obtain ⟨left, res', hremove, hremoved⟩ := ResultsTree.removeExtent_spec hg hinner
        simp only [hremove]
        by_cases hfew : g.deNumDupes ≤ 2
        · rw [if_pos (by rw [hremoved.left_eq, if_pos hfew])]
          refine .freed (hahead hfew) (hremoved.gone hfew) fun x hx hne => ?_
          rcases hpair hfew x hx with h | h
          · exact absurd h hne
          · exact h ▸ hdup
        · obtain ⟨g₁, hg₁, herase⟩ := hremoved.stays (by omega)
          have hleft : left ≠ 0 := by
            rw [hremoved.left_eq, if_neg hfew]
            omega
          have hstay : ∀ x ∈ g.deExtents, x ≠ inner → x ∈ g₁.deExtents := by
            intro x hx hne
            rw [herase]
            exact (List.mem_erase_of_ne hne).2 hx
          rw [if_neg hleft]
          refine (ih hg₁ (hstay outer houter houter'.1) ?_ hnext kept).drop hinner hdup hinner'
            (Ne.symm houter'.1) herase (by omega)
          intro x hx
          exact hstay x (hrest x (List.mem_cons_of_mem _ hx)) fun h => hinner' (h ▸ hx)
      · rename_i hnot
        exact (ih hg houter (fun x hx => hrest x (List.mem_cons_of_mem _ hx)) hnext _).keep hnot

end Inner

/-! ## The outer loop -/

/-- An extent that shares with one in front of it, as far as the records tell. -/
def DupeExtents.Repeats (g : DupeExtents) (x : ResultExtent) : Prop :=
  Stale g.deLen x ∧ ∃ y ∈ g.deExtents, y.Before x ∧ y.ePoff = x.ePoff

instance (g : DupeExtents) (x : ResultExtent) : Decidable (g.Repeats x) :=
  inferInstanceAs (Decidable ((x.ePoff ≠ 0 ∧ diskExtentGrew g.deLen x = false) ∧
    ∃ y ∈ g.deExtents, pairCmp y.key x.key = .lt ∧ y.ePoff = x.ePoff))

/-- An extent that the walk drops before it comes to `outer`. -/
def DupeExtents.RepeatsUpTo (g : DupeExtents) (outer x : ResultExtent) : Prop :=
  Stale g.deLen x ∧ ∃ y ∈ g.deExtents, y.Before x ∧ y.Before outer ∧ y.ePoff = x.ePoff

/-- How `clean_deduped` ends on the group `g`. Either all but one extent repeat, all
    of it shares, and it is freed.
    Or only extents that repeat are dropped, and those left do not repeat, unless
    all of the group shares. -/
inductive CleanEnd (p : Nat × DigestBytes) (g : DupeExtents) : CleanExit → Prop where
  | returned {res' : ResultsTree} {g' : DupeExtents} (hremains : Remains res' p g g')
      (hdropped : ∀ x ∈ g.deExtents, x ∉ g'.deExtents → g.Repeats x)
      (hkept : (∀ x ∈ g'.deExtents, ¬ g.Repeats x) ∨
        ∀ x ∈ g.deExtents, ∀ y ∈ g.deExtents, x.ePoff = y.ePoff) : CleanEnd p g (.returned res')
  | freed {res' : ResultsTree} {first : ResultExtent} (hgone : res'.root[p]? = none)
      (hrepeats : ∀ x ∈ g.deExtents, x ≠ first → g.Repeats x)
      (hshare : ∀ x ∈ g.deExtents, ∀ y ∈ g.deExtents, x.ePoff = y.ePoff) :
      CleanEnd p g (.freed res')

/-- The walk in front of a round: at the first extent with the whole group, or at a
    later one when all that repeats an earlier one is gone. -/
inductive CleanWalk.Inv (p : Nat × DigestBytes) (res : ResultsTree) (g : DupeExtents) (s : CleanWalk) :
    Prop where
  | first (hres : s.res = res) (hfirst : g.rbFirst = some s.outer)
  | later (g' : DupeExtents) (hremains : Remains s.res p g g') (houter : s.outer ∈ g'.deExtents)
      (hpassed : ∃ z ∈ g'.deExtents, z.Before s.outer)
      (hmem : ∀ x ∈ g.deExtents, x ∈ g'.deExtents ↔ ¬ g.RepeatsUpTo s.outer x)

section Outer

variable {res : ResultsTree} {p : Nat × DigestBytes} {g : DupeExtents} {s : CleanWalk}

/-- What both positions of the walk have in common. -/
theorem CleanWalk.Inv.here (h : CleanWalk.Inv p res g s) (hg : res.root[p]? = some g) :
    ∃ g', Remains s.res p g g' ∧ s.outer ∈ g'.deExtents ∧
      (∀ x ∈ g.deExtents, x ∈ g'.deExtents ↔ ¬ g.RepeatsUpTo s.outer x) ∧
      ((∃ z ∈ g'.deExtents, z.Before s.outer) ∨ (g' = g ∧ g.rbFirst = some s.outer)) := by
  cases h with
  | first hres hfirst =>
    refine ⟨g, ⟨hres ▸ hg, .refl _, id⟩, DupeExtents.rbFirst_mem hfirst, ?_, .inr ⟨rfl, hfirst⟩⟩
    intro x hx
    refine ⟨fun _ => ?_, fun _ => hx⟩
    -- Nothing lies in front of the first extent.
    rintro ⟨-, y, hy, -, hbefore, -⟩
    rcases DupeExtents.rbFirst_least hfirst hy with rfl | hlt
    · exact ResultExtent.not_before_self _ hbefore
    · exact ResultExtent.not_before_self _ (hbefore.trans hlt)
  | later g' hremains houter hpassed hmem => exact ⟨g', hremains, houter, hmem, .inl hpassed⟩

/-- An extent is gone after the round of `outer` when it repeats an extent up to and
    with `outer`. -/
def DupeExtents.RepeatsThrough (g : DupeExtents) (outer x : ResultExtent) : Prop :=
  Stale g.deLen x ∧
    ∃ y ∈ g.deExtents, y.Before x ∧ (y.Before outer ∨ y = outer) ∧ y.ePoff = x.ePoff

/-- The drops of one round, on top of those before it. -/
theorem mem_of_round {g' g'' : DupeExtents} {outer : ResultExtent} (hlen : g.deLen = p.1)
    (houter : outer ∈ g.deExtents)
    (hmem : ∀ x ∈ g.deExtents, x ∈ g'.deExtents ↔ ¬ g.RepeatsUpTo outer x)
    (hsub : ∀ x ∈ g''.deExtents, x ∈ g'.deExtents)
    (hmem' : ∀ x ∈ g'.deExtents, x ∈ g''.deExtents ↔
      ¬ (x ∈ g'.after outer ∧ isDeduped p.1 outer x = true))
    {x : ResultExtent} (hx : x ∈ g.deExtents) :
    x ∈ g''.deExtents ↔ ¬ g.RepeatsThrough outer x := by
  rw [← hlen] at hmem'
  constructor
  · rintro hx'' ⟨hstale, y, hy, hbefore, hy' | rfl, hpoff⟩
    · exact (hmem x hx).1 (hsub x hx'') ⟨hstale, y, hy, hbefore, hy', hpoff⟩
    · have hx' := hsub x hx''
      exact (hmem' x hx').1 hx''
        ⟨DupeExtents.mem_after.2 ⟨hx', hbefore⟩, isDeduped_iff.2 ⟨hstale, hpoff⟩⟩
  · intro hnot
    have hx' : x ∈ g'.deExtents := by
      refine (hmem x hx).2 ?_
      rintro ⟨hstale, y, hy, hbefore, hy', hpoff⟩
      exact hnot ⟨hstale, y, hy, hbefore, .inl hy', hpoff⟩
    refine (hmem' x hx').2 ?_
    rintro ⟨hafter, hdup⟩
    obtain ⟨hstale, hpoff⟩ := isDeduped_iff.1 hdup
    exact hnot ⟨hstale, outer, houter, (DupeExtents.mem_after.1 hafter).2, .inr rfl, hpoff⟩

/-- The last round: nothing is left behind `outer`, so all that repeats is gone. -/
theorem mem_of_lastRound {g'' : DupeExtents} {outer : ResultExtent}
    (hmem : ∀ x ∈ g.deExtents, x ∈ g''.deExtents ↔ ¬ g.RepeatsThrough outer x)
    (houter : outer ∈ g.deExtents) (hnext : (g''.after outer).head? = none) {x : ResultExtent}
    (hx : x ∈ g.deExtents) : x ∈ g''.deExtents ↔ ¬ g.Repeats x := by
  rw [List.head?_eq_none_iff] at hnext
  rw [hmem x hx]
  refine not_congr ⟨?_, ?_⟩
  · rintro ⟨hstale, y, hy, hbefore, -, hpoff⟩
    exact ⟨hstale, y, hy, hbefore, hpoff⟩
  · rintro ⟨hstale, y, hy, hbefore, hpoff⟩
    by_contra hnot
    -- `x` lies behind `outer` and is still there.
    have hbehind : outer.Before x := by
      rcases outer.before_trichotomy y with hlt | heq | hgt
      · exact hlt.trans hbefore
      · have hsame := List.inj_on_of_nodup_map g.keys_nodup houter hy heq
        exact absurd ⟨hstale, y, hy, hbefore, .inr hsame.symm, hpoff⟩ hnot
      · exact absurd ⟨hstale, y, hy, hbefore, .inl hgt, hpoff⟩ hnot
    have hmem'' : x ∈ g''.after outer :=
      DupeExtents.mem_after.2 ⟨(hmem x hx).2 hnot, hbehind⟩
    rw [hnext] at hmem''
    cases hmem''

/-- A round in the middle: the extents between `outer` and the next one are gone, so
    those that repeat one of them repeat an earlier one as well. -/
theorem mem_of_nextRound {g'' : DupeExtents} {outer next : ResultExtent}
    (hmem : ∀ x ∈ g.deExtents, x ∈ g''.deExtents ↔ ¬ g.RepeatsThrough outer x)
    (houter : outer ∈ g.deExtents) (hnext : (g''.after outer).head? = some next)
    {x : ResultExtent} (hx : x ∈ g.deExtents) :
    x ∈ g''.deExtents ↔ ¬ g.RepeatsUpTo next x := by
  have hbefore : outer.Before next :=
    (DupeExtents.mem_after.1 (List.mem_of_mem_head? hnext)).2
  rw [hmem x hx]
  refine not_congr ⟨?_, ?_⟩
  · rintro ⟨hstale, y, hy, hyx, hy' | rfl, hpoff⟩
    · exact ⟨hstale, y, hy, hyx, hy'.trans hbefore, hpoff⟩
    · exact ⟨hstale, y, hy, hyx, hbefore, hpoff⟩
  · rintro ⟨hstale, y, hy, hyx, hynext, hpoff⟩
    rcases outer.before_trichotomy y with hlt | heq | hgt
    · by_cases hgone : y ∈ g''.deExtents
      · rcases DupeExtents.eq_or_before_of_head hnext hgone hlt with rfl | hafter
        · exact absurd hynext (y.not_before_self)
        · exact absurd (hynext.trans hafter) (y.not_before_self)
      · rw [hmem y hy, not_not] at hgone
        obtain ⟨-, z, hz, hzy, hz', hpoff'⟩ := hgone
        exact ⟨hstale, z, hz, hzy.trans hyx, hz', hpoff'.trans hpoff⟩
    · have hsame := List.inj_on_of_nodup_map g.keys_nodup houter hy heq
      exact ⟨hstale, y, hy, hyx, .inr hsame.symm, hpoff⟩
    · exact ⟨hstale, y, hy, hyx, .inl hgt, hpoff⟩

/-- A loop that leaves early stands at the first extent: two extents are left, and
    they repeat only if all of the group shares. -/
theorem CleanEnd.of_early {g' : DupeExtents} {res' : ResultsTree} {last : ResultExtent}
    (hlen : g.deLen = p.1) (hfirst : g.rbFirst = some s.outer)
    (hlast : last ∈ g.after s.outer) (hremains : Remains res' p g g')
    (hmem : ∀ x ∈ g.deExtents, x ∈ g'.deExtents ↔ x = s.outer ∨ x = last)
    (hshare : ∀ x ∈ g.deExtents, x ≠ s.outer → x ≠ last → isDeduped p.1 s.outer x = true) :
    CleanEnd p g (.returned res') := by
  have houter := DupeExtents.rbFirst_mem hfirst
  rw [← hlen] at hshare
  have hbehind : ∀ x ∈ g.deExtents, x ≠ s.outer → s.outer.Before x := fun x hx hne =>
    (DupeExtents.rbFirst_least hfirst hx).resolve_left hne
  have hpoff : ∀ x ∈ g.deExtents, x ≠ last → x.ePoff = s.outer.ePoff := by
    intro x hx hne
    by_cases heq : x = s.outer
    · rw [heq]
    · exact (isDeduped_iff.1 (hshare x hx heq hne)).2.symm
  refine .returned hremains ?_ ?_
  · intro x hx hgone
    rw [hmem x hx, not_or] at hgone
    obtain ⟨hstale, heq⟩ := isDeduped_iff.1 (hshare x hx hgone.1 hgone.2)
    exact ⟨hstale, s.outer, houter, hbehind x hx hgone.1, heq⟩
  · by_cases hrepeats : g.Repeats last
    · right
      obtain ⟨-, y, hy, hbefore, heq⟩ := hrepeats
      have hne : y ≠ last := by
        rintro rfl
        exact y.not_before_self hbefore
      have hall : ∀ x ∈ g.deExtents, x.ePoff = s.outer.ePoff := by
        intro x hx
        by_cases hx' : x = last
        · rw [hx', ← heq, hpoff y hy hne]
        · exact hpoff x hx hx'
      intro x hx y hy
      rw [hall x hx, hall y hy]
    · left
      intro x hx'
      rcases (hmem x (hremains.sublist.subset hx')).1 hx' with rfl | rfl
      · rintro ⟨-, y, hy, hbefore, -⟩
        rcases DupeExtents.rbFirst_least hfirst hy with rfl | hlt
        · exact ResultExtent.not_before_self _ hbefore
        · exact ResultExtent.not_before_self _ (hbefore.trans hlt)
      · exact hrepeats

/-- A group is freed at its first extent, when all others repeat it. -/
theorem CleanEnd.of_gone {res' : ResultsTree} (hlen : g.deLen = p.1)
    (hfirst : g.rbFirst = some s.outer) (hgone : res'.root[p]? = none)
    (hshare : ∀ x ∈ g.deExtents, x ≠ s.outer → isDeduped p.1 s.outer x = true) :
    CleanEnd p g (.freed res') := by
  rw [← hlen] at hshare
  have hpoff : ∀ x ∈ g.deExtents, x.ePoff = s.outer.ePoff := by
    intro x hx
    by_cases heq : x = s.outer
    · rw [heq]
    · exact (isDeduped_iff.1 (hshare x hx heq)).2.symm
  have hrepeats : ∀ x ∈ g.deExtents, x ≠ s.outer → g.Repeats x := by
    intro x hx hne
    obtain ⟨hstale, heq⟩ := isDeduped_iff.1 (hshare x hx hne)
    have hbehind := (DupeExtents.rbFirst_least hfirst hx).resolve_left hne
    exact ⟨hstale, s.outer, DupeExtents.rbFirst_mem hfirst, hbehind, heq⟩
  refine .freed hgone hrepeats fun x hx y hy => ?_
  rw [hpoff x hx, hpoff y hy]

/-- The walk gets nearer to the end of the tree. -/
theorem after_length_lt {outer next : ResultExtent} (hnext : next ∈ g.after outer) :
    (g.after next).length < (g.after outer).length := by
  have hsub : next :: g.after next ⊆ g.after outer := by
    intro x hx
    rcases List.mem_cons.1 hx with rfl | hx
    · exact hnext
    · obtain ⟨hx, hbefore⟩ := DupeExtents.mem_after.1 hx
      exact DupeExtents.mem_after.2 ⟨hx, (DupeExtents.mem_after.1 hnext).2.trans hbefore⟩
  have hle := (List.subperm_of_subset (DupeExtents.cons_after_nodup g next) hsub).length_le
  rwa [List.length_cons] at hle

/-- A round of the outer loop ends the walk as it should, or takes it on to the next
    extent. -/
theorem cleanRound_spec (hg : res.root[p]? = some g) (h : CleanWalk.Inv p res g s) :
    (∃ exit, cleanRound p s = .leave exit ∧ CleanEnd p g exit) ∨
      ∃ s', cleanRound p s = .again s' ∧ CleanWalk.Inv p res g s' ∧
        (g.after s'.outer).length < (g.after s.outer).length := by
  obtain ⟨g', hremains, houter, hmem, hwhere⟩ := h.here hg
  have hlen : g.deLen = p.1 := congrArg Prod.fst (res.keyed p g hg)
  have houter' := hremains.sublist.subset houter
  simp only [cleanRound, hremains.here]
  -- A loop that leaves early has the whole group in front of it.
  have hstart : (∀ x ∈ g'.deExtents, x ≠ s.outer → x ∈ g'.after s.outer) →
      g' = g ∧ g.rbFirst = some s.outer := by
    intro hall
    refine hwhere.resolve_left ?_
    rintro ⟨z, hz, hbefore⟩
    have hne : z ≠ s.outer := by
      intro heq
      exact s.outer.not_before_self (heq ▸ hbefore)
    have hbehind := (DupeExtents.mem_after.1 (hall z hz hne)).2
    exact z.not_before_self (hbefore.trans hbehind)
  have hinner := cleanInner_spec hremains.here houter
    (fun x hx => (DupeExtents.mem_after.1 hx).1) (DupeExtents.cons_after_nodup g' s.outer)
    (if s.first && (decide (s.outer.ePoff = 0) || diskExtentGrew g'.deLen s.outer) then s.kept + 1
      else s.kept)
  generalize cleanInner p s.outer (g'.after s.outer) _ s.res = exit at hinner ⊢
  cases hinner with
  | @goOn kept res' g'' hremains' hmem' =>
    have hmem'' : ∀ x ∈ g.deExtents, x ∈ g''.deExtents ↔ ¬ g.RepeatsThrough s.outer x :=
      fun x hx => mem_of_round hlen houter' hmem (fun _ h => hremains'.sublist.subset h) hmem' hx
    have hsub : Remains res' p g g'' :=
      ⟨hremains'.here, hremains'.sublist.trans hremains.sublist,
        fun hn => hremains'.two (hremains.two hn)⟩
    simp only [hremains'.here, Option.bind_some]
    cases hnext : (g''.after s.outer).head? with
    | none =>
      have hlast : ∀ x ∈ g.deExtents, x ∈ g''.deExtents ↔ ¬ g.Repeats x := fun x hx =>
        mem_of_lastRound hmem'' houter' hnext hx
      refine .inl ⟨_, rfl, .returned hsub ?_ (.inl ?_)⟩
      · exact fun x hx hgone => not_not.1 (mt (hlast x hx).2 hgone)
      · exact fun x hx => (hlast x (hsub.sublist.subset hx)).1 hx
    | some next =>
      obtain ⟨hin, hbefore⟩ := DupeExtents.mem_after.1 (List.mem_of_mem_head? hnext)
      refine .inr ⟨_, rfl, .later g'' hsub hin ⟨s.outer, ?_, hbefore⟩ ?_, ?_⟩
      · exact (hmem' s.outer houter).2 fun hself => DupeExtents.not_mem_after g' _ hself.1
      · exact fun x hx => mem_of_nextRound hmem'' houter' hnext hx
      · exact after_length_lt (DupeExtents.mem_after.2 ⟨hsub.sublist.subset hin, hbefore⟩)
  | returned hall hlast hremains' hmem' hshare =>
    obtain ⟨rfl, hfirst⟩ := hstart hall
    exact .inl ⟨_, rfl, .of_early hlen hfirst hlast hremains' hmem' hshare⟩
  | freed hall hgone hshare =>
    obtain ⟨rfl, hfirst⟩ := hstart hall
    exact .inl ⟨_, rfl, .of_gone hlen hfirst hgone hshare⟩

/-- `clean_deduped` on a group of the tree. -/
theorem cleanDeduped_spec (hg : res.root[p]? = some g) (hne : g.deExtents ≠ []) :
    CleanEnd p g (cleanDeduped res p) := by
  obtain ⟨outer, hfirst⟩ := DupeExtents.exists_rbFirst hne
  suffices hrun : ∃ exit, Loop.run (cleanRound p) (g.deNumDupes + 1) ⟨outer, true, 0, res⟩ =
      some exit ∧ CleanEnd p g exit by
    obtain ⟨exit, heq, hend⟩ := hrun
    simp only [cleanDeduped, hg, hfirst, heq, Option.getD_some]
    exact hend
  refine Loop.run_total (CleanWalk.Inv p res g) (fun s => (g.after s.outer).length) ?_ _ _
    (.first rfl hfirst) ?_
  · intro s hs
    exact (cleanRound_spec hg hs).symm
  · have hsub : g.after outer ⊆ g.deExtents := fun x hx => (DupeExtents.mem_after.1 hx).1
    have hle := (List.subperm_of_subset (DupeExtents.after_nodup g outer) hsub).length_le
    rw [g.numDupes_eq]
    exact Nat.lt_succ_of_le hle

end Outer

end Duperemove
