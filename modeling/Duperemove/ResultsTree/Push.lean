-- SUMMARY: `push_extents` walks the results tree while workers delete the groups that it has handed out.
import Duperemove.Lib.Steps
import Duperemove.ResultsTree.Invariant

/-!
# Handing out the groups

`push_extents` walks the tree in order and queues every group with at least two
extents. The workers start at once, and remove extents and whole groups from the
tree under the mutex that also guards `rb_next`. They only touch groups that were
queued, and the cursor stands on one that was not, so what is ahead of the cursor is
as it was at the start. Groups are known by their keys: no group is inserted while
this runs, so a key that is not in the tree is a group that was freed.
-/

namespace Duperemove

/-! ## The system -/

namespace ResultsTree

/-- The groups behind `k`, in the order of the tree. -/
def groupsAfter (res : ResultsTree) (k : Nat × DigestBytes) : List (Nat × DigestBytes) :=
  res.root.keys.filter fun k' => pairCmp k k' = .lt

/-- `rb_next` -/
def rbNext (res : ResultsTree) (k : Nat × DigestBytes) : Option (Nat × DigestBytes) :=
  (res.groupsAfter k).head?

end ResultsTree

/-- Where `push_extents` stands: at the head of its loop, in front of the test with the
    cursor on the next node, or in front of `g_thread_pool_push`. It has returned zero at
    the head without a node, or one after an error, or it is lost on a group that was
    freed. -/
inductive PushPhase where
  | head (node : Option (Nat × DigestBytes))
  | testing (dext : Nat × DigestBytes) (node : Option (Nat × DigestBytes))
  | pushing (dext : Nat × DigestBytes) (node : Option (Nat × DigestBytes))
  | failed
  | lost
  deriving DecidableEq, Repr

/-- The tree, the walk, and the groups that were queued, in order. -/
structure PushSys where
  res : ResultsTree
  phase : PushPhase
  pushed : List (Nat × DigestBytes)

/-- The next step of `push_extents`, one of a worker that removes an extent, or one of a
    worker that frees a group. `err` is the error of `g_thread_pool_push`. -/
inductive PushEvent where
  | pusher (err : Bool)
  | removeExtent (e : ResultExtent)
  | dupeExtentsFree (p : Nat × DigestBytes)

namespace PushSys

def start (res : ResultsTree) : PushSys := ⟨res, .head res.root.keys.head?, []⟩

/-- The next step of `push_extents`. Every step reads the group it stands on. The group
    is queued by `g_thread_pool_push` also when that cannot start a thread. -/
def pusherStep (err : Bool) (s : PushSys) : PushSys :=
  match s.phase with
  | .head none => s
  | .head (some k) =>
    match s.res.root[k]? with
    | none => { s with phase := .lost }
    | some _ => { s with phase := .testing k (s.res.rbNext k) }
  | .testing k node =>
    match s.res.root[k]? with
    | none => { s with phase := .lost }
    | some dext =>
      if dext.deNumDupes < 2 then { s with phase := .head node }
      else { s with phase := .pushing k node }
  | .pushing k node =>
    match s.res.root[k]? with
    | none => { s with phase := .lost }
    | some _ =>
      { s with phase := if err then .failed else .head node, pushed := s.pushed ++ [k] }
  | .failed => s
  | .lost => s

/-- The group `p` was queued, and is still there with the extent `e`. -/
def Holds (s : PushSys) (p : Nat × DigestBytes) (e : ResultExtent) : Prop :=
  p ∈ s.pushed ∧ ∃ g, s.res.root[p]? = some g ∧ e ∈ g.deExtents

instance (s : PushSys) (p : Nat × DigestBytes) (e : ResultExtent) : Decidable (s.Holds p e) :=
  match h : s.res.root[p]? with
  | none => .isFalse fun hs => by
    obtain ⟨-, g, hg, -⟩ := hs
    rw [h] at hg
    cases hg
  | some g => decidable_of_iff (p ∈ s.pushed ∧ e ∈ g.deExtents) (by simp [Holds, h])

/-- One step of the system; `none` when it cannot happen. A worker has its group from
    the queue, and removes extents of that group only. -/
def step (s : PushSys) : PushEvent → Option PushSys
  | .pusher err => some (s.pusherStep err)
  | .removeExtent e =>
    match e.eParent with
    | none => none
    | some p =>
      if s.Holds p e then (s.res.removeExtent e).map fun r => { s with res := r.2 } else none
  | .dupeExtentsFree p =>
    if p ∈ s.pushed then (s.res.dupeExtentsFree p).map fun res => { s with res := res } else none

def run (s : PushSys) (events : List PushEvent) : Option PushSys := events.foldlM step s

/-- `push_extents` has returned. -/
def Returned (s : PushSys) : Prop := s.phase = .head none ∨ s.phase = .failed

end PushSys

/-! ## The order of the groups -/

section Order

variable {res res₀ : ResultsTree} {k : Nat × DigestBytes}

theorem mem_groupsAfter {k' : Nat × DigestBytes} :
    k' ∈ res.groupsAfter k ↔ res.root[k']?.isSome ∧ pairCmp k k' = .lt := by
  rw [ResultsTree.groupsAfter, List.mem_filter, Std.TreeMap.mem_keys, decide_eq_true_eq,
    Std.TreeMap.mem_iff_isSome_getElem?]

theorem groupsAfter_sorted (res : ResultsTree) (k : Nat × DigestBytes) :
    (res.groupsAfter k).Pairwise fun a b => pairCmp a b = .lt :=
  Std.TreeMap.ordered_keys.filter _

theorem pairCmp_self_ne_lt (k : Nat × DigestBytes) : pairCmp k k ≠ .lt := by
  have hself : pairCmp k k = .eq := Std.ReflCmp.compare_self
  rw [hself]
  decide

theorem pairCmp_lt_asymm {a b : Nat × DigestBytes} (hab : pairCmp a b = .lt) :
    pairCmp b a ≠ .lt := by
  rw [Std.OrientedCmp.gt_iff_lt.2 hab]
  decide

/-- Two lists in strictly increasing order with the same members. -/
theorem eq_of_sorted_of_mem_iff {l l' : List (Nat × DigestBytes)}
    (hl : l.Pairwise fun a b => pairCmp a b = .lt) (hl' : l'.Pairwise fun a b => pairCmp a b = .lt)
    (hmem : ∀ a, a ∈ l ↔ a ∈ l') : l = l' := by
  have hne : ∀ {a b : Nat × DigestBytes}, pairCmp a b = .lt → a ≠ b := by
    rintro a _ hlt rfl
    exact pairCmp_self_ne_lt a hlt
  have hperm := (List.perm_ext_iff_of_nodup (hl.imp hne) (hl'.imp hne)).2 hmem
  exact hperm.eq_of_pairwise (fun a b _ _ hab hba => absurd hba (pairCmp_lt_asymm hab)) hl hl'

/-- A tree that has lost groups in front of `k` only has the same groups behind it. -/
theorem groupsAfter_eq {done rest : List (Nat × DigestBytes)}
    (hsplit : res₀.root.keys = done ++ k :: rest)
    (hahead : ∀ k' ∈ rest, res.root[k']? = res₀.root[k']?)
    (hkeys : ∀ k' : Nat × DigestBytes, res.root[k']?.isSome → res₀.root[k']?.isSome) :
    res.groupsAfter k = rest := by
  have hsorted := @Std.TreeMap.ordered_keys _ _ _ res₀.root _
  rw [hsplit] at hsorted
  obtain ⟨-, hrest, hbefore⟩ := List.pairwise_append.1 hsorted
  obtain ⟨hbehind, hrest⟩ := List.pairwise_cons.1 hrest
  have hmem : ∀ k' : Nat × DigestBytes, res₀.root[k']?.isSome ↔ k' ∈ done ++ k :: rest := by
    intro k'
    rw [← hsplit, Std.TreeMap.mem_keys, Std.TreeMap.mem_iff_isSome_getElem?]
  refine eq_of_sorted_of_mem_iff (groupsAfter_sorted res k) hrest fun k' => ?_
  rw [mem_groupsAfter]
  constructor
  · rintro ⟨hthere, hlt⟩
    have hin := (hmem k').1 (hkeys k' hthere)
    simp only [List.mem_append, List.mem_cons] at hin
    rcases hin with hdone | rfl | hrest
    · exact absurd hlt (pairCmp_lt_asymm (hbefore k' hdone k List.mem_cons_self))
    · exact absurd hlt (pairCmp_self_ne_lt _)
    · exact hrest
  · intro hin
    refine ⟨?_, hbehind k' hin⟩
    rw [hahead k' hin, hmem]
    simp [hin]

end Order

/-! ## The walk -/

/-- The groups that are to be queued. -/
def ResultsTree.due (res : ResultsTree) (k : Nat × DigestBytes) : Bool :=
  match res.root[k]? with
  | some g => decide (2 ≤ g.deNumDupes)
  | none => false

/-- The walk stands at the head of `rest`. -/
def PushPhase.StandsAt (res₀ : ResultsTree) (rest : List (Nat × DigestBytes)) : PushPhase → Prop
  | head node => node = rest.head?
  | testing k node => ∃ rest', rest = k :: rest' ∧ node = rest'.head?
  | pushing k node => res₀.due k ∧ ∃ rest', rest = k :: rest' ∧ node = rest'.head?
  | failed => True
  | lost => False

/-- How many steps are left with `n` groups ahead. -/
def PushPhase.left (n : Nat) : PushPhase → Nat
  | head _ => 3 * n
  | testing _ _ => 3 * n - 1
  | pushing _ _ => 3 * n - 2
  | failed => 0
  | lost => 0

/-- The invariant: the groups `done` of the tree at the start are behind the cursor, and
    those that were due are queued. The groups `rest` are ahead and as they were. -/
structure PushSys.Walks (res₀ : ResultsTree) (s : PushSys) (done rest : List (Nat × DigestBytes)) :
    Prop where
  split : res₀.root.keys = done ++ rest
  stands : s.phase.StandsAt res₀ rest
  pushed : s.pushed = done.filter res₀.due
  ahead : ∀ k ∈ rest, s.res.root[k]? = res₀.root[k]?
  keys : ∀ k : Nat × DigestBytes, s.res.root[k]?.isSome → res₀.root[k]?.isSome

namespace PushSys

variable {res₀ : ResultsTree} {s s' : PushSys} {done rest : List (Nat × DigestBytes)}

theorem Walks.start (res₀ : ResultsTree) : Walks res₀ (start res₀) [] res₀.root.keys where
  split := rfl
  stands := rfl
  pushed := rfl
  ahead := fun _ _ => rfl
  keys := fun _ => id

/-- The group under the cursor is there. -/
theorem Walks.current {k : Nat × DigestBytes} (h : Walks res₀ s done (k :: rest)) :
    ∃ g, s.res.root[k]? = some g ∧ res₀.root[k]? = some g := by
  have hin : k ∈ res₀.root.keys := by
    rw [h.split]
    simp
  rw [Std.TreeMap.mem_keys, Std.TreeMap.mem_iff_isSome_getElem?] at hin
  obtain ⟨g, hg⟩ := Option.isSome_iff_exists.1 hin
  exact ⟨g, (h.ahead k List.mem_cons_self).trans hg, hg⟩

/-- A group that was queued may change or go. -/
theorem Walks.shrink {p : Nat × DigestBytes} {res' : ResultsTree} (h : Walks res₀ s done rest)
    (hp : p ∈ s.pushed) (hothers : ∀ k, k ≠ p → res'.root[k]? = s.res.root[k]?) :
    Walks res₀ { s with res := res' } done rest := by
  rw [h.pushed] at hp
  have hdone := (List.mem_filter.1 hp).1
  have hnodup : (done ++ rest).Nodup := by
    rw [← h.split]
    exact Std.TreeMap.nodup_keys
  refine ⟨h.split, h.stands, h.pushed, ?_, ?_⟩
  · intro k hk
    have hne : k ≠ p := fun heq => (List.disjoint_of_nodup_append hnodup) hdone (heq ▸ hk)
    exact (hothers k hne).trans (h.ahead k hk)
  · intro k hk
    by_cases hkp : k = p
    · rw [hkp, ← Std.TreeMap.mem_iff_isSome_getElem?, ← Std.TreeMap.mem_keys, h.split]
      exact List.mem_append_left _ hdone
    · rw [hothers k hkp] at hk
      exact h.keys k hk

/-- The cursor leaves a group behind, which is queued if it was due. -/
theorem Walks.leave {k : Nat × DigestBytes} (h : Walks res₀ s done (k :: rest))
    {pushed : List (Nat × DigestBytes)}
    (hpushed : pushed = s.pushed ++ [k].filter res₀.due) {phase : PushPhase}
    (hstands : phase.StandsAt res₀ rest) :
    Walks res₀ ⟨s.res, phase, pushed⟩ (done ++ [k]) rest where
  split := by rw [h.split, List.append_assoc, List.singleton_append]
  stands := hstands
  pushed := by rw [hpushed, h.pushed, List.filter_append]
  ahead := fun k' hk' => h.ahead k' (List.mem_cons_of_mem _ hk')
  keys := h.keys

/-- A step of the walk: it goes on, and comes closer to its end unless it is there. -/
theorem Walks.pusherStep (h : Walks res₀ s done rest) (err : Bool) :
    ∃ done' rest', Walks res₀ (s.pusherStep err) done' rest' ∧
      ((s.pusherStep err).Returned ∨
        (s.pusherStep err).phase.left rest'.length + 1 ≤ s.phase.left rest.length) := by
  obtain ⟨res, phase, pushed⟩ := s
  cases phase with
  | lost => exact absurd h.stands id
  | failed => exact ⟨done, rest, h, .inl (.inr rfl)⟩
  | head node =>
    obtain rfl : node = rest.head? := h.stands
    cases rest with
    | nil => exact ⟨done, [], h, .inl (.inl rfl)⟩
    | cons k rest =>
      obtain ⟨g, hg, -⟩ := h.current
      have hg : res.root[k]? = some g := hg
      have hnext : res.rbNext k = rest.head? := by
        rw [ResultsTree.rbNext, groupsAfter_eq h.split
          (fun k' hk' => h.ahead k' (List.mem_cons_of_mem _ hk')) h.keys]
      simp only [PushSys.pusherStep, List.head?_cons, hg, hnext]
      refine ⟨done, k :: rest, ⟨h.split, ⟨rest, rfl, rfl⟩, h.pushed, h.ahead, h.keys⟩, .inr ?_⟩
      simp only [PushPhase.left, List.length_cons]
      omega
  | testing k node =>
    obtain ⟨rest, rfl, rfl⟩ := h.stands
    obtain ⟨g, hg, hg₀⟩ := h.current
    have hg : res.root[k]? = some g := hg
    simp only [PushSys.pusherStep, hg]
    split
    · rename_i hfew
      have hdue : res₀.due k = false := by simpa [ResultsTree.due, hg₀] using hfew
      have hskipped : pushed = pushed ++ [k].filter res₀.due := by
        rw [List.filter_singleton, hdue]
        exact (List.append_nil _).symm
      refine ⟨done ++ [k], rest, h.leave hskipped rfl, .inr ?_⟩
      simp only [PushPhase.left, List.length_cons]
      omega
    · rename_i hmany
      have hdue : res₀.due k = true := by
        simp only [ResultsTree.due, hg₀, decide_eq_true_eq]
        omega
      refine ⟨done, k :: rest, ⟨h.split, ⟨hdue, rest, rfl, rfl⟩, h.pushed, h.ahead, h.keys⟩,
        .inr ?_⟩
      simp only [PushPhase.left, List.length_cons]
      omega
  | pushing k node =>
    obtain ⟨hdue, rest, rfl, rfl⟩ := h.stands
    obtain ⟨g, hg, -⟩ := h.current
    have hg : res.root[k]? = some g := hg
    have hqueued : pushed ++ [k] = pushed ++ [k].filter res₀.due := by
      rw [List.filter_singleton, hdue]
      rfl
    simp only [PushSys.pusherStep, hg]
    cases err with
    | true => exact ⟨_, _, @Walks.leave _ _ _ _ _ h _ hqueued .failed trivial, .inl (.inr rfl)⟩
    | false =>
      refine ⟨_, _, @Walks.leave _ _ _ _ _ h _ hqueued (.head rest.head?) rfl, .inr ?_⟩
      simp only [PushPhase.left, List.length_cons, Bool.false_eq_true, if_false]
      omega

theorem Returned.pusherStep (h : s.Returned) (err : Bool) : s.pusherStep err = s := by
  rcases h with h | h <;> simp only [PushSys.pusherStep, h]

/-- A group that `dupe_extents_free` frees has extents. -/
theorem dupeExtentsFree_others {res res' : ResultsTree} {p : Nat × DigestBytes}
    (h : res.dupeExtentsFree p = some res') : ∀ k, k ≠ p → res'.root[k]? = res.root[k]? := by
  cases hg : res.root[p]? with
  | none => simp [ResultsTree.dupeExtentsFree, hg] at h
  | some g =>
    by_cases hne : g.deExtents = []
    · have hroot : g.deExtentsRoot.toList = [] := by
        have hperm := ResultsTree.tree_perm g
        rw [hne] at hperm
        exact hperm.eq_nil
      have hfirst : g.rbFirst = none := by simp [DupeExtents.rbFirst, hroot]
      simp [ResultsTree.dupeExtentsFree, hg, Loop.run, ResultsTree.freeRound, hfirst] at h
    · obtain ⟨res₁, hfree, hfreed⟩ := ResultsTree.dupeExtentsFree_spec hg hne
      rw [hfree] at h
      cases h
      exact hfreed.others

/-! ## Runs -/

/-- The steps of `push_extents` in a run. -/
def pusherSteps (events : List PushEvent) : Nat :=
  (events.filter fun event => match event with
    | .pusher _ => true
    | _ => false).length

/-- What a worker can do: it changes one group that was queued. -/
theorem step_worker {event : PushEvent} (hworker : ∀ err, event ≠ .pusher err)
    (hstep : s.step event = some s') :
    ∃ p ∈ s.pushed, ∃ res', s' = { s with res := res' } ∧
      ∀ k, k ≠ p → res'.root[k]? = s.res.root[k]? := by
  cases event with
  | pusher err => exact absurd rfl (hworker err)
  | removeExtent e =>
    simp only [PushSys.step] at hstep
    split at hstep
    · cases hstep
    · rename_i p hparent
      split at hstep
      · rename_i hholds
        obtain ⟨hp, g, hg, he⟩ := hholds
        obtain ⟨left, res', hremove, hremoved⟩ := ResultsTree.removeExtent_spec hg he
        rw [hremove] at hstep
        cases hstep
        exact ⟨p, hp, res', rfl, hremoved.others⟩
      · cases hstep
  | dupeExtentsFree p =>
    simp only [PushSys.step] at hstep
    split at hstep
    · rename_i hp
      obtain ⟨res', hfree, rfl⟩ := Option.map_eq_some_iff.1 hstep
      exact ⟨p, hp, res', rfl, dupeExtentsFree_others hfree⟩
    · cases hstep

theorem Walks.step {event : PushEvent} (h : Walks res₀ s done rest)
    (hstep : s.step event = some s') :
    ∃ done' rest', Walks res₀ s' done' rest' ∧ (s.Returned → s'.Returned) ∧
      (s'.Returned ∨
        s'.phase.left rest'.length + pusherSteps [event] ≤ s.phase.left rest.length) := by
  by_cases hpusher : ∃ err, event = .pusher err
  · obtain ⟨err, rfl⟩ := hpusher
    cases hstep
    obtain ⟨done', rest', hwalks, hcloser⟩ := h.pusherStep err
    exact ⟨done', rest', hwalks, fun hret => by rw [hret.pusherStep]; exact hret, hcloser⟩
  · have hworker : ∀ err, event ≠ .pusher err := fun err heq => hpusher ⟨err, heq⟩
    obtain ⟨p, hp, res', rfl, hothers⟩ := step_worker hworker hstep
    have hnone : pusherSteps [event] = 0 := by
      cases event with
      | pusher err => exact absurd rfl (hworker err)
      | removeExtent _ => rfl
      | dupeExtentsFree _ => rfl
    refine ⟨done, rest, h.shrink hp hothers, id, .inr ?_⟩
    rw [hnone]
    exact le_rfl

theorem Walks.run {events : List PushEvent} (h : Walks res₀ s done rest)
    (hrun : s.run events = some s') :
    ∃ done' rest', Walks res₀ s' done' rest' ∧ (s.Returned → s'.Returned) ∧
      (s'.Returned ∨
        s'.phase.left rest'.length + pusherSteps events ≤ s.phase.left rest.length) := by
  induction events generalizing s done rest with
  | nil =>
    cases hrun
    exact ⟨done, rest, h, id, .inr le_rfl⟩
  | cons event events ih =>
    obtain ⟨s₁, hstep, hrest⟩ := Steps.run_cons.1 hrun
    obtain ⟨done₁, rest₁, h₁, hkeep, hcloser⟩ := h.step hstep
    obtain ⟨done', rest', hwalks, hkeep', hcloser'⟩ := ih h₁ hrest
    refine ⟨done', rest', hwalks, fun hret => hkeep' (hkeep hret), ?_⟩
    have hsum : pusherSteps (event :: events) = pusherSteps [event] + pusherSteps events := by
      rw [pusherSteps, ← List.singleton_append, List.filter_append, List.length_append]
      rfl
    rcases hcloser with hret | hleft
    · exact .inl (hkeep' hret)
    · rcases hcloser' with hret | hleft'
      · exact .inl hret
      · exact .inr (by omega)

/-- A walk without steps left has returned. -/
theorem Walks.returned_of_left (h : Walks res₀ s done rest) (hleft : s.phase.left rest.length = 0) :
    s.Returned := by
  obtain ⟨res, phase, pushed⟩ := s
  cases phase with
  | lost => exact absurd h.stands id
  | failed => exact .inr rfl
  | head node =>
    obtain rfl : node = rest.head? := h.stands
    have hrest : rest = [] := by
      rw [← List.length_eq_zero_iff]
      simp only [PushPhase.left] at hleft
      omega
    rw [hrest]
    exact .inl rfl
  | testing k node =>
    obtain ⟨rest, rfl, -⟩ := h.stands
    simp only [PushPhase.left, List.length_cons] at hleft
    omega
  | pushing k node =>
    obtain ⟨-, rest, rfl, -⟩ := h.stands
    simp only [PushPhase.left, List.length_cons] at hleft
    omega

theorem pusherStep_failed {err : Bool} (h : (s.pusherStep err).phase = .failed) :
    s.phase = .failed ∨ err = true := by
  obtain ⟨res, phase, pushed⟩ := s
  cases phase with
  | lost => cases h
  | failed => exact .inl rfl
  | head node =>
    cases node with
    | none => cases h
    | some k =>
      simp only [PushSys.pusherStep] at h
      split at h <;> cases h
  | testing k node =>
    simp only [PushSys.pusherStep] at h
    split at h
    · cases h
    · split at h <;> cases h
  | pushing k node =>
    simp only [PushSys.pusherStep] at h
    split at h
    · cases h
    · cases err with
      | true => exact .inr rfl
      | false => cases h

/-- Only an error of `g_thread_pool_push` makes `push_extents` fail. -/
theorem failed_of_run {events : List PushEvent} (hok : s.phase ≠ .failed)
    (hrun : s.run events = some s') (hfailed : s'.phase = .failed) :
    .pusher true ∈ events := by
  by_contra hnone
  refine Steps.run_keeps (fun s => s.phase ≠ .failed) ?_ hok hrun hfailed
  intro event hevent s s' hs hstep
  by_cases hpusher : ∃ err, event = .pusher err
  · obtain ⟨err, rfl⟩ := hpusher
    cases hstep
    intro hfailed
    rcases pusherStep_failed hfailed with h | rfl
    · exact hs h
    · exact hnone hevent
  · obtain ⟨p, -, res', rfl, -⟩ := step_worker (fun err heq => hpusher ⟨err, heq⟩) hstep
    exact hs

end PushSys

/-- Over every tree and every interleaving of `push_extents` with workers that remove
    extents from the groups that were queued or free them: no group is visited that was
    freed, no group is queued twice, and only groups with at least two extents at the
    start are. All of these are queued when `push_extents` returns zero. It returns after
    three steps for each group, and fails only when `g_thread_pool_push` does. -/
theorem pushExtents_run (res₀ : ResultsTree) {events : List PushEvent} {s : PushSys}
    (hrun : (PushSys.start res₀).run events = some s) :
    s.phase ≠ .lost ∧
    s.pushed.Nodup ∧
    (∀ k ∈ s.pushed, ∃ g, res₀.root[k]? = some g ∧ 2 ≤ g.deNumDupes) ∧
    (s.phase = .head none → ∀ (k : Nat × DigestBytes) (g : DupeExtents),
      res₀.root[k]? = some g → 2 ≤ g.deNumDupes → k ∈ s.pushed) ∧
    (3 * res₀.groups.length ≤ PushSys.pusherSteps events →
      s.phase = .head none ∨ s.phase = .failed) ∧
    (s.phase = .failed → .pusher true ∈ events) := by
  obtain ⟨done, rest, hwalks, -, hcloser⟩ := (PushSys.Walks.start res₀).run hrun
  have hkeys := hwalks.split
  refine ⟨?_, ?_, ?_, ?_, ?_, PushSys.failed_of_run (by simp [PushSys.start]) hrun⟩
  · intro hlost
    have hstands := hwalks.stands
    rw [hlost] at hstands
    exact hstands
  · rw [hwalks.pushed]
    have hnodup : (done ++ rest).Nodup := by
      rw [← hkeys]
      exact Std.TreeMap.nodup_keys
    exact (List.nodup_append.1 hnodup).1.filter _
  · intro k hk
    rw [hwalks.pushed] at hk
    have hdue := (List.mem_filter.1 hk).2
    unfold ResultsTree.due at hdue
    split at hdue
    · rename_i g hg
      exact ⟨g, hg, of_decide_eq_true hdue⟩
    · cases hdue
  · intro hdone k g hg hmany
    have hstands := hwalks.stands
    rw [hdone] at hstands
    have hrest : rest = [] := List.head?_eq_none_iff.1 hstands.symm
    rw [hrest, List.append_nil] at hkeys
    rw [hwalks.pushed, List.mem_filter, ← hkeys, Std.TreeMap.mem_keys,
      Std.TreeMap.mem_iff_isSome_getElem?]
    simp [ResultsTree.due, hg, hmany]
  · intro hsteps
    rcases hcloser with hret | hleft
    · exact hret
    · have hlength : res₀.root.keys.length = res₀.groups.length := by
        rw [← ResultsTree.groups_keys, List.length_map]
      have hstart : (PushSys.start res₀).phase.left res₀.root.keys.length =
          3 * res₀.root.keys.length := rfl
      exact hwalks.returned_of_left (by omega)

/-- A tree with a group of two extents, and behind it one of a single extent. -/
def unevenTree : ResultsTree :=
  ((ResultsTree.empty.insertResult ResultsTree.pageMatch).bind fun res =>
    res.insertOneResult (Vector.replicate digestLen 1) ⟨1, "a", 1, 4096⟩ 0 4096 0).getD .empty

/-- The worker frees the first group while `push_extents` is in front of the test of the
    second one. -/
def quickWorker : List PushEvent :=
  [.pusher false, .pusher false, .pusher false, .pusher false,
    .dupeExtentsFree (4096, Vector.replicate digestLen 0), .pusher false, .pusher false]

theorem pushExtents_run_quickWorker :
    ∃ s, (PushSys.start unevenTree).run quickWorker = some s ∧ s.phase ≠ .lost ∧
      s.pushed = [(4096, Vector.replicate digestLen 0)] ∧
      s.res.root[((4096, Vector.replicate digestLen 0) : Nat × DigestBytes)]? = none ∧
      (s.phase = .head none ∨ s.phase = .failed) := by
  have hmap : ((PushSys.start unevenTree).run quickWorker).map (fun s => decide
      (s.pushed = [(4096, Vector.replicate digestLen 0)] ∧
        s.res.root[((4096, Vector.replicate digestLen 0) : Nat × DigestBytes)]?.isNone)) =
      some true := by
    decide +kernel
  have hgroups : unevenTree.groups.length = 2 := by decide +kernel
  obtain ⟨s, hrun, hall⟩ := Option.map_eq_some_iff.1 hmap
  obtain ⟨hpushed, hgone⟩ := of_decide_eq_true hall
  obtain ⟨hlost, -, -, -, hends, -⟩ := pushExtents_run unevenTree hrun
  refine ⟨s, hrun, hlost, hpushed, Option.isNone_iff_eq_none.1 hgone, hends ?_⟩
  rw [hgroups]
  decide

end Duperemove
