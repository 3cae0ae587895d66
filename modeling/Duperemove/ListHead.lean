-- SUMMARY: list.h on the memory of its nodes: in every run of its functions the memory holds the lists that they stand for.
import Mathlib.Data.Fintype.Basic
import Duperemove.Lib.Rings

/-!
# Lists in memory

The functions of `list.h` that the program calls, as writes to the nodes. A node is known by
its address, and a list by the address of its head. A program that follows a null pointer ends
in `none`.

The other modules take a `list_head` for the list of its entries. Here the memory is shown to
hold these lists: any number of them at once, while entries are added to them, removed from
them and moved between them.
-/

namespace Duperemove

open Rings (Links)

/-- `struct list_head`. -/
structure ListHead (ν : Type) where
  next : Option ν
  prev : Option ν
  deriving DecidableEq, Repr

structure ListMem (ν : Type) where
  node : ν → ListHead ν

namespace ListMem

variable {ν : Type} [DecidableEq ν] {h h' : ListMem ν}

-- ---------------------------------------------------------------------------
-- Writes
-- ---------------------------------------------------------------------------

def setNext (h : ListMem ν) (x : ν) (p : Option ν) : ListMem ν :=
  ⟨fun y => if y = x then { h.node y with next := p } else h.node y⟩

def setPrev (h : ListMem ν) (x : ν) (p : Option ν) : ListMem ν :=
  ⟨fun y => if y = x then { h.node y with prev := p } else h.node y⟩

section Write

variable {x y : ν} {p : Option ν}

@[simp] theorem next_setNext :
    ((h.setNext x p).node y).next = if y = x then p else (h.node y).next := by
  rw [setNext]
  dsimp only
  split <;> rfl

@[simp] theorem prev_setNext : ((h.setNext x p).node y).prev = (h.node y).prev := by
  rw [setNext]
  dsimp only
  split <;> rfl

@[simp] theorem next_setPrev : ((h.setPrev x p).node y).next = (h.node y).next := by
  rw [setPrev]
  dsimp only
  split <;> rfl

@[simp] theorem prev_setPrev :
    ((h.setPrev x p).node y).prev = if y = x then p else (h.node y).prev := by
  rw [setPrev]
  dsimp only
  split <;> rfl

theorem node_setNext_ne (hne : y ≠ x) : (h.setNext x p).node y = h.node y := if_neg hne

theorem node_setPrev_ne (hne : y ≠ x) : (h.setPrev x p).node y = h.node y := if_neg hne

end Write

-- ---------------------------------------------------------------------------
-- list.h
-- ---------------------------------------------------------------------------

/-- `INIT_LIST_HEAD` -/
def initListHead (h : ListMem ν) (list : ν) : ListMem ν :=
  (h.setNext list (some list)).setPrev list (some list)

def listEmpty (h : ListMem ν) (head : ν) : Bool := decide ((h.node head).next = some head)

/-- `__list_add` -/
def listAddBetween (h : ListMem ν) (new : ν) (prev next : Option ν) : Option (ListMem ν) := do
  let next ← next
  let prev ← prev
  return (((h.setPrev next (some new)).setNext new (some next)).setPrev new (some prev)).setNext
    prev (some new)

def listAdd (h : ListMem ν) (new head : ν) : Option (ListMem ν) :=
  h.listAddBetween new (some head) (h.node head).next

def listAddTail (h : ListMem ν) (new head : ν) : Option (ListMem ν) :=
  h.listAddBetween new (h.node head).prev (some head)

/-- `__list_del_entry`, with `__list_del` -/
def listDelEntry (h : ListMem ν) (entry : ν) : Option (ListMem ν) := do
  let prev ← (h.node entry).prev
  let next ← (h.node entry).next
  return (h.setPrev next (some prev)).setNext prev (some next)

/-- `list_del`, with the addresses `LIST_POISON1` and `LIST_POISON2`. -/
def listDel (poison : ν × ν) (h : ListMem ν) (entry : ν) : Option (ListMem ν) := do
  let h ← h.listDelEntry entry
  return (h.setNext entry (some poison.1)).setPrev entry (some poison.2)

def listDelInit (h : ListMem ν) (entry : ν) : Option (ListMem ν) := do
  let h ← h.listDelEntry entry
  return h.initListHead entry

def listMoveTail (h : ListMem ν) (list head : ν) : Option (ListMem ν) := do
  let h ← h.listDelEntry list
  h.listAddTail list head

/-- `__list_splice` -/
def listSplice (h : ListMem ν) (list : ν) (prev : ν) (next : Option ν) : Option (ListMem ν) := do
  let first ← (h.node list).next
  let last ← (h.node list).prev
  let next ← next
  return (((h.setPrev first (some prev)).setNext prev (some first)).setNext last
    (some next)).setPrev next (some last)

def listSpliceInit (h : ListMem ν) (list head : ν) : Option (ListMem ν) :=
  if h.listEmpty list then some h
  else do
    let h ← h.listSplice list head (h.node head).next
    return h.initListHead list

def listIsLast (h : ListMem ν) (list head : ν) : Bool := decide ((h.node list).next = some head)

/-- The rounds of `list_for_each_entry` from an entry on: the entries up to the head. `none` is
    a null pointer, or more entries than `fuel`. -/
def listWalk (h : ListMem ν) (head : ν) : Nat → ν → Option (List ν)
  | 0, pos => if pos = head then some [] else none
  | fuel + 1, pos =>
    if pos = head then some []
    else do
      let next ← (h.node pos).next
      let rest ← h.listWalk head fuel next
      return pos :: rest

def listForEachEntry (h : ListMem ν) (head : ν) (fuel : Nat) : Option (List ν) := do
  let first ← (h.node head).next
  h.listWalk head fuel first

-- ---------------------------------------------------------------------------
-- One ring
-- ---------------------------------------------------------------------------

def links (h : ListMem ν) : Links ν := ⟨fun x => (h.node x).next, fun x => (h.node x).prev⟩

/-- The list of the head is in memory. -/
abbrev Ring (h : ListMem ν) (head : ν) (xs : List ν) : Prop := h.links.Ring head xs

section Ring

variable {head entry new : ν} {xs ys : List ν}

theorem ring_initListHead : (h.initListHead head).Ring head [] := by
  refine ⟨?_, List.nodup_singleton head⟩
  refine List.isChain_cons_cons.2 ⟨⟨?_, ?_⟩, List.isChain_singleton head⟩
  · simp [links, initListHead]
  · simp [links, initListHead]

theorem node_initListHead_ne {z : ν} (hne : z ≠ head) :
    (h.initListHead head).node z = h.node z := by
  rw [initListHead, node_setPrev_ne hne, node_setNext_ne hne]

omit [DecidableEq ν] in
/-- A ring that no write touches. -/
theorem Ring.frame (hr : h.Ring head xs) (hkeep : ∀ z ∈ head :: xs, h'.node z = h.node z) :
    h'.Ring head xs :=
  hr.congr (fun p hp => congrArg ListHead.next (hkeep p hp))
    fun q hq => congrArg ListHead.prev (hkeep q hq)

omit [DecidableEq ν] in
/-- The neighbours at a place of a ring. -/
theorem Ring.neighbours (hr : h.Ring head (xs ++ ys)) :
    ∃ l₁ u v l₂, head :: xs = l₁ ++ [u] ∧ ys ++ [head] = v :: l₂ ∧ h.links.Joined u v := by
  obtain ⟨l₁, u, hu⟩ := (List.eq_nil_or_concat' (head :: xs)).resolve_left (List.cons_ne_nil _ _)
  obtain ⟨v, l₂, hv⟩ := List.exists_cons_of_ne_nil (l := ys ++ [head]) (by simp)
  have hpath := hr.path
  rw [← List.cons_append, List.append_assoc, hu, hv, List.append_assoc, List.singleton_append]
    at hpath
  exact ⟨l₁, u, v, l₂, hu, hv, (List.isChain_append_cons_cons.1 hpath).2.1⟩

omit [DecidableEq ν] in
theorem mem_of_neighbour {l₁ : List ν} {u : ν} (hu : head :: xs = l₁ ++ [u]) :
    u ∈ head :: (xs ++ ys) := by
  rw [← List.cons_append, hu]
  exact List.mem_append_left _ (List.mem_append_right _ List.mem_cons_self)

omit [DecidableEq ν] in
theorem mem_of_neighbour' {l₂ : List ν} {v : ν} (hv : ys ++ [head] = v :: l₂) :
    v ∈ head :: (xs ++ ys) := by
  have hin : v ∈ ys ++ [head] := hv ▸ List.mem_cons_self
  rcases List.mem_append.1 hin with hin | hin
  · exact List.mem_cons_of_mem _ (List.mem_append_right _ hin)
  · rw [List.mem_singleton.1 hin]
    exact List.mem_cons_self

/-- A node is linked between two neighbours. -/
theorem Ring.listAddBetween {l₁ l₂ : List ν} {u v : ν} (hr : h.Ring head (xs ++ ys))
    (hu : head :: xs = l₁ ++ [u]) (hv : ys ++ [head] = v :: l₂)
    (hnew : new ∉ head :: (xs ++ ys)) :
    ∃ h', h.listAddBetween new (some u) (some v) = some h' ∧ h'.Ring head (xs ++ new :: ys) ∧
      ∀ z, z ∉ new :: head :: (xs ++ ys) → h'.node z = h.node z := by
  have hune : u ≠ new := fun heq => hnew (heq ▸ mem_of_neighbour hu)
  have hvne : v ≠ new := fun heq => hnew (heq ▸ mem_of_neighbour' hv)
  refine ⟨_, rfl, ?_, fun z hz => ?_⟩
  · have hperm : (head :: (xs ++ [new] ++ ys)).Perm (new :: head :: (xs ++ ys)) := by
      rw [List.append_assoc]
      exact ((List.perm_middle).cons head).trans (.swap _ _ _)
    have hring : Ring ((((h.setPrev v (some new)).setNext new (some v)).setPrev new
        (some u)).setNext u (some new)) head (xs ++ [new] ++ ys) :=
      Links.Ring.replace (m := []) (by rwa [List.append_nil]) hu hv (fun p hp hne => ?_)
        (fun q hq hne => ?_) ?_ (hperm.nodup_iff.2 (List.nodup_cons.2 ⟨hnew, hr.nodup⟩))
    · rwa [List.append_assoc, List.singleton_append] at hring
    · have hne' : p ≠ new := fun heq => hnew (heq ▸ hp)
      simp [links, hne, hne']
    · have hne' : q ≠ new := fun heq => hnew (heq ▸ hq)
      simp [links, hne, hne']
    · refine (Links.path_between_iff (rfl : [new] = new :: []) (List.nil_append [new]).symm).2
        ⟨⟨?_, ?_⟩, List.isChain_singleton new, ?_, ?_⟩
      · simp [links]
      · simp [links]
      · simp [links, hune.symm]
      · simp [links, hvne]
  · rw [List.mem_cons, not_or] at hz
    have hzu : z ≠ u := fun heq => hz.2 (by rw [heq]; exact mem_of_neighbour hu)
    have hzv : z ≠ v := fun heq => hz.2 (by rw [heq]; exact mem_of_neighbour' hv)
    rw [node_setNext_ne hzu, node_setPrev_ne hz.1, node_setNext_ne hz.1, node_setPrev_ne hzv]

theorem Ring.listAddTail (hr : h.Ring head xs) (hnew : new ∉ head :: xs) :
    ∃ h', h.listAddTail new head = some h' ∧ h'.Ring head (xs ++ [new]) ∧
      ∀ z, z ∉ new :: head :: xs → h'.node z = h.node z := by
  have hr' : h.Ring head (xs ++ []) := by rwa [List.append_nil]
  obtain ⟨l₁, u, v, l₂, hu, hv, hjoined⟩ := hr'.neighbours
  obtain ⟨rfl, rfl⟩ : head = v ∧ [] = l₂ := List.cons.inj hv
  have hprev : (h.node head).prev = some u := hjoined.2
  have hadded := hr'.listAddBetween hu hv (by rwa [List.append_nil])
  rw [List.append_nil] at hadded
  rwa [ListMem.listAddTail, hprev]

omit [DecidableEq ν] in
/-- The node behind the head. -/
theorem Ring.behind (hr : h.Ring head xs) :
    ∃ v l₂, xs ++ [head] = v :: l₂ ∧ (h.node head).next = some v := by
  obtain ⟨v, l₂, hv⟩ := List.exists_cons_of_ne_nil (l := xs ++ [head]) (by simp)
  have hpath := hr.path
  rw [List.cons_append, hv] at hpath
  exact ⟨v, l₂, hv, (List.isChain_cons_cons.1 hpath).1.1⟩

theorem Ring.listAdd (hr : h.Ring head xs) (hnew : new ∉ head :: xs) :
    ∃ h', h.listAdd new head = some h' ∧ h'.Ring head (new :: xs) ∧
      ∀ z, z ∉ new :: head :: xs → h'.node z = h.node z := by
  obtain ⟨v, l₂, hv, hnext⟩ := hr.behind
  have hr' : h.Ring head ([] ++ xs) := hr
  rw [ListMem.listAdd, hnext]
  exact hr'.listAddBetween (List.nil_append [head]).symm hv hnew

omit [DecidableEq ν] in
/-- The neighbours of an entry. -/
theorem Ring.around (hr : h.Ring head (xs ++ entry :: ys)) :
    ∃ l₁ u v l₂, head :: xs = l₁ ++ [u] ∧ ys ++ [head] = v :: l₂ ∧ h.links.Joined u entry ∧
      h.links.Joined entry v := by
  obtain ⟨l₁, u, w, l₂, hu, hw, hfront⟩ := hr.neighbours
  have hr' : h.Ring head ((xs ++ [entry]) ++ ys) := by
    rwa [List.append_assoc, List.singleton_append]
  obtain ⟨l₁', u', v, l₂', hu', hv, hback⟩ := hr'.neighbours
  obtain ⟨rfl, -⟩ : entry = w ∧ _ := List.cons.inj hw
  rw [← List.cons_append] at hu'
  obtain ⟨-, heq⟩ := List.append_inj' hu' rfl
  obtain rfl : entry = u' := List.singleton_inj.1 heq
  exact ⟨l₁, u, v, l₂', hu, hv, hfront, hback⟩

/-- An entry is taken out. Its own pointers stay. -/
theorem Ring.listDelEntry (hr : h.Ring head (xs ++ entry :: ys)) :
    ∃ h', h.listDelEntry entry = some h' ∧ h'.Ring head (xs ++ ys) ∧
      ∀ z, z ∉ head :: (xs ++ ys) → h'.node z = h.node z := by
  obtain ⟨l₁, u, v, l₂, hu, hv, hfront, hback⟩ := hr.around
  have hprev : (h.node entry).prev = some u := hfront.2
  have hnext : (h.node entry).next = some v := hback.1
  refine ⟨(h.setPrev v (some u)).setNext u (some v), ?_, ?_, fun z hz => ?_⟩
  · simp only [ListMem.listDelEntry, hprev, hnext, Option.bind_eq_bind, Option.bind_some,
      Option.pure_def]
  · have hsub : (head :: (xs ++ ys)).Sublist (head :: (xs ++ entry :: ys)) :=
      ((List.sublist_cons_self entry ys).append_left xs).cons_cons head
    have hring : Ring ((h.setPrev v (some u)).setNext u (some v)) head (xs ++ [] ++ ys) :=
      Links.Ring.replace (m := [entry]) (by rwa [List.append_assoc, List.singleton_append]) hu hv
        (fun p hp hne => ?_) (fun q hq hne => ?_) ?_
        (by rw [List.append_nil]; exact hr.nodup.sublist hsub)
    · rwa [List.append_nil] at hring
    · simp [links, hne]
    · simp [links, hne]
    · refine List.isChain_cons_cons.2 ⟨⟨?_, ?_⟩, List.isChain_singleton v⟩
      · simp [links]
      · simp [links]
  · have hzu : z ≠ u := fun heq => hz (by rw [heq]; exact mem_of_neighbour hu)
    have hzv : z ≠ v := fun heq => hz (by rw [heq]; exact mem_of_neighbour' hv)
    rw [node_setNext_ne hzu, node_setPrev_ne hzv]

/-- A node that is initialised and stands in no list is taken out of its own ring. -/
theorem Ring.listDelEntry_lone (hr : h.Ring entry []) :
    ∃ h', h.listDelEntry entry = some h' ∧ ∀ z, z ∉ [entry] → h'.node z = h.node z := by
  obtain ⟨hnext, hprev⟩ := (List.isChain_cons_cons.1 hr.path).1
  have hnext' : (h.node entry).next = some entry := hnext
  have hprev' : (h.node entry).prev = some entry := hprev
  refine ⟨(h.setPrev entry (some entry)).setNext entry (some entry), ?_, fun z hz => ?_⟩
  · simp only [ListMem.listDelEntry, hprev', hnext', Option.bind_eq_bind, Option.bind_some,
      Option.pure_def]
  · have hne : z ≠ entry := List.ne_of_not_mem_cons hz
    rw [node_setNext_ne hne, node_setPrev_ne hne]

theorem Ring.listDelInit (hr : h.Ring head (xs ++ entry :: ys)) :
    ∃ h', h.listDelInit entry = some h' ∧ h'.Ring head (xs ++ ys) ∧ h'.Ring entry [] ∧
      ∀ z, z ∉ head :: (xs ++ entry :: ys) → h'.node z = h.node z := by
  obtain ⟨h₁, hdel, hr₁, hkeep⟩ := hr.listDelEntry
  have hperm : (head :: (xs ++ entry :: ys)).Perm (entry :: head :: (xs ++ ys)) :=
    (List.perm_middle.cons head).trans (.swap _ _ _)
  have hentry := (List.nodup_cons.1 (hperm.nodup_iff.1 hr.nodup)).1
  refine ⟨h₁.initListHead entry, ?_, hr₁.frame fun z hz => ?_, ring_initListHead, fun z hz => ?_⟩
  · simp only [ListMem.listDelInit, hdel, Option.bind_eq_bind, Option.bind_some, Option.pure_def]
  · exact node_initListHead_ne fun heq => hentry (heq ▸ hz)
  · rw [hperm.mem_iff, List.mem_cons, not_or] at hz
    rw [node_initListHead_ne hz.1, hkeep z hz.2]

theorem Ring.listDel {poison : ν × ν} (hr : h.Ring head (xs ++ entry :: ys)) :
    ∃ h', h.listDel poison entry = some h' ∧ h'.Ring head (xs ++ ys) ∧
      ∀ z, z ∉ head :: (xs ++ entry :: ys) → h'.node z = h.node z := by
  obtain ⟨h₁, hdel, hr₁, hkeep⟩ := hr.listDelEntry
  have hperm : (head :: (xs ++ entry :: ys)).Perm (entry :: head :: (xs ++ ys)) :=
    (List.perm_middle.cons head).trans (.swap _ _ _)
  have hentry := (List.nodup_cons.1 (hperm.nodup_iff.1 hr.nodup)).1
  refine ⟨(h₁.setNext entry (some poison.1)).setPrev entry (some poison.2), ?_,
    hr₁.frame fun z hz => ?_, fun z hz => ?_⟩
  · simp only [ListMem.listDel, hdel, Option.bind_eq_bind, Option.bind_some, Option.pure_def]
  · have hne : z ≠ entry := fun heq => hentry (heq ▸ hz)
    rw [node_setPrev_ne hne, node_setNext_ne hne]
  · rw [hperm.mem_iff, List.mem_cons, not_or] at hz
    rw [node_setPrev_ne hz.1, node_setNext_ne hz.1, hkeep z hz.2]

theorem Ring.listEmpty_iff (hr : h.Ring head xs) : h.listEmpty head = true ↔ xs = [] := by
  rw [listEmpty, decide_eq_true_eq]
  have hpath := hr.path
  cases xs with
  | nil => exact iff_of_true (List.isChain_cons_cons.1 hpath).1.1 rfl
  | cons x xs =>
    have hnext : (h.node head).next = some x := (List.isChain_cons_cons.1 hpath).1.1
    rw [hnext]
    refine iff_of_false (fun heq => ?_) (List.cons_ne_nil x xs)
    exact (List.nodup_cons.1 hr.nodup).1 (Option.some.inj heq ▸ List.mem_cons_self)

/-- The entries of a list go in front of those of another one. -/
theorem Ring.listSpliceInit {list : ν} (hl : h.Ring list xs) (hr : h.Ring head ys)
    (hapart : (list :: xs).Disjoint (head :: ys)) :
    ∃ h', h.listSpliceInit list head = some h' ∧ h'.Ring list [] ∧ h'.Ring head (xs ++ ys) ∧
      ∀ z, z ∉ list :: xs → z ∉ head :: ys → h'.node z = h.node z := by
  by_cases hempty : xs = []
  · obtain rfl := hempty
    refine ⟨h, ?_, hl, hr, fun _ _ _ => rfl⟩
    rw [ListMem.listSpliceInit, if_pos (hl.listEmpty_iff.2 rfl)]
  obtain ⟨first, back, hfirst⟩ := List.exists_cons_of_ne_nil hempty
  obtain ⟨front, last, hlast⟩ := (List.eq_nil_or_concat' xs).resolve_left hempty
  obtain ⟨hjoinf, hpath, hjoinl⟩ := (Links.path_between_iff hfirst hlast).1 hl.path
  obtain ⟨v, l₂, hv, hnext⟩ := hr.behind
  have hlast' : last ∈ xs := hlast ▸ List.mem_append_right _ List.mem_cons_self
  have hfirst' : first ∈ xs := hfirst ▸ List.mem_cons_self
  have hv' : v ∈ head :: ys :=
    (List.perm_append_singleton head ys).mem_iff.1 (hv ▸ List.mem_cons_self)
  have hne : ∀ x ∈ xs, ∀ y ∈ head :: ys, x ≠ y := fun x hx y hy heq =>
    hapart (List.mem_cons_of_mem _ hx) (heq ▸ hy)
  have hlist : list ∉ head :: (xs ++ ys) := fun hin => by
    have hperm : (head :: (xs ++ ys)).Perm (xs ++ head :: ys) := List.perm_middle.symm
    rcases List.mem_append.1 (hperm.mem_iff.1 hin) with hin | hin
    · exact (List.nodup_cons.1 hl.nodup).1 hin
    · exact hapart List.mem_cons_self hin
  let h₁ := (((h.setPrev first (some head)).setNext head (some first)).setNext last
    (some v)).setPrev v (some last)
  have hring : h₁.Ring head (xs ++ ys) := by
    have hr' : h.Ring head ([] ++ [] ++ ys) := hr
    rw [← List.nil_append xs]
    refine Links.Ring.replace hr' (List.nil_append [head]).symm hv (fun p hp hph => ?_)
      (fun q hq hqv => ?_) ?_ ?_
    · have hpl : p ≠ last := (hne last hlast' p hp).symm
      simp [links, h₁, hph, hpl]
    · have hqf : q ≠ first := (hne first hfirst' q hq).symm
      simp [links, h₁, hqv, hqf]
    · refine (Links.path_between_iff hfirst hlast).2 ⟨⟨?_, ?_⟩, ?_, ?_, ?_⟩
      · have hhl : head ≠ last := (hne last hlast' head List.mem_cons_self).symm
        simp [links, h₁, hhl]
      · have hfv : first ≠ v := hne first hfirst' v hv'
        simp [links, h₁, hfv]
      · refine hpath.congr (fun p hp => ?_) fun q hq => ?_
        · rw [hlast, List.dropLast_concat] at hp
          have hpl : p ≠ last := fun heq => by
            have hnodup := (List.nodup_cons.1 hl.nodup).2
            rw [hlast, List.nodup_append'] at hnodup
            exact hnodup.2.2 hp (heq ▸ List.mem_cons_self)
          have hph : p ≠ head :=
            hne p (hlast ▸ List.mem_append_left _ hp) head List.mem_cons_self
          simp [links, h₁, hpl, hph]
        · rw [hfirst, List.tail_cons] at hq
          have hqf : q ≠ first := fun heq => by
            have hnodup := (List.nodup_cons.1 hl.nodup).2
            rw [hfirst, List.nodup_cons] at hnodup
            exact hnodup.1 (heq ▸ hq)
          have hqv : q ≠ v := hne q (hfirst ▸ List.mem_cons_of_mem _ hq) v hv'
          simp [links, h₁, hqf, hqv]
      · simp [links, h₁]
      · simp [links, h₁]
    · refine List.perm_middle.nodup_iff.1 (List.nodup_append'.2 ⟨?_, hr.nodup, ?_⟩)
      · exact (List.nodup_cons.1 hl.nodup).2
      · exact fun x hx hx' => hne x hx x hx' rfl
  refine ⟨h₁.initListHead list, ?_, ring_initListHead, hring.frame fun z hz => ?_,
    fun z hz hz' => ?_⟩
  · have hfull : h.listEmpty list = false :=
      Bool.eq_false_iff.2 fun heq => hempty (hl.listEmpty_iff.1 heq)
    have hnextl : (h.node list).next = some first := hjoinf.1
    have hprevl : (h.node list).prev = some last := hjoinl.2
    simp only [ListMem.listSpliceInit, hfull, Bool.false_eq_true, if_false, listSplice, hnextl,
      hprevl, hnext, Option.bind_eq_bind, Option.bind_some, Option.pure_def, h₁]
  · exact node_initListHead_ne fun heq => hlist (heq ▸ hz)
  · have hzl : z ≠ list := fun heq => hz (heq ▸ List.mem_cons_self)
    have hzin : ∀ x ∈ xs, z ≠ x := fun x hx heq => hz (heq ▸ List.mem_cons_of_mem _ hx)
    have hzout : ∀ y ∈ head :: ys, z ≠ y := fun y hy heq => hz' (heq ▸ hy)
    rw [node_initListHead_ne hzl, node_setPrev_ne (hzout v hv'), node_setNext_ne (hzin last hlast'),
      node_setNext_ne (hzout head List.mem_cons_self), node_setPrev_ne (hzin first hfirst')]

omit [DecidableEq ν] in
/-- The node behind an entry. -/
theorem Ring.next_eq (hr : h.Ring head (xs ++ entry :: ys)) :
    (h.node entry).next = some (ys.head?.getD head) := by
  obtain ⟨l₁, u, v, l₂, -, hv, -, hback⟩ := hr.around
  have hnext : (h.node entry).next = some v := hback.1
  rw [hnext]
  cases ys with
  | nil => rw [(List.cons.inj hv).1]; rfl
  | cons y ys => rw [(List.cons.inj hv).1]; rfl

theorem Ring.listIsLast_iff (hr : h.Ring head xs) (hentry : entry ∈ xs) :
    h.listIsLast entry head = true ↔ xs.getLast? = some entry := by
  obtain ⟨front, back, rfl⟩ := List.append_of_mem hentry
  have hnodup := hr.nodup
  rw [listIsLast, decide_eq_true_eq, hr.next_eq]
  cases back with
  | nil => exact iff_of_true rfl List.getLast?_concat
  | cons y back =>
    refine iff_of_false (fun heq => ?_) fun heq => ?_
    · have hhead : y = head := Option.some.inj heq
      exact (List.nodup_cons.1 hnodup).1 (by simp [← hhead])
    · have hlast : entry ∈ y :: back := by
        rw [List.getLast?_append_of_ne_nil _ (List.cons_ne_nil entry _),
          List.getLast?_cons_cons] at heq
        exact List.mem_of_getLast? heq
      have hapart := (List.nodup_append'.1 (List.nodup_cons.1 hnodup).2).2.1
      exact (List.nodup_cons.1 hapart).1 hlast

theorem Ring.walk_from (hr : h.Ring head (xs ++ ys)) :
    h.listWalk head ys.length (ys.head?.getD head) = some ys := by
  induction ys generalizing xs with
  | nil => simp [listWalk]
  | cons y ys ih =>
    have hhead : y ≠ head := fun heq => by
      have hnodup := (List.nodup_cons.1 hr.nodup).1
      exact hnodup (by simp [heq])
    have hrest := @ih (xs ++ [y]) (by rwa [List.append_assoc, List.singleton_append])
    simp only [List.length_cons, List.head?_cons, Option.getD_some, listWalk, hhead, if_false,
      hr.next_eq, Option.bind_eq_bind, Option.bind_some, hrest, Option.pure_def]

/-- A traversal comes to the entries in their order. -/
theorem Ring.listForEachEntry (hr : h.Ring head xs) :
    h.listForEachEntry head xs.length = some xs := by
  obtain ⟨v, l₂, hv, hnext⟩ := hr.behind
  have hfirst : v = xs.head?.getD head := by
    cases xs with
    | nil => exact (List.cons.inj hv).1.symm
    | cons x xs => exact (List.cons.inj hv).1.symm
  have hwalk := @Ring.walk_from ν _ h head [] xs hr
  rw [ListMem.listForEachEntry, hnext, Option.bind_eq_bind, Option.bind_some, hfirst, hwalk]

end Ring

-- ---------------------------------------------------------------------------
-- All rings of a memory
-- ---------------------------------------------------------------------------

/-- No node stands in two lists. -/
def Apart (s : ν → Option (List ν)) : Prop :=
  ∀ a b xs ys, a ≠ b → s a = some xs → s b = some ys → (a :: xs).Disjoint (b :: ys)

/-- The memory holds the lists `s`: the head of each with its entries. -/
structure Holds (h : ListMem ν) (s : ν → Option (List ν)) : Prop where
  ring : ∀ a xs, s a = some xs → h.Ring a xs
  apart : Apart s

/-- A node that stands in no list. It may be the head of an empty one. -/
structure Free (s : ν → Option (List ν)) (x : ν) : Prop where
  head : (s x).getD [] = []
  entry : ∀ a, x ∉ (s a).getD []

omit [DecidableEq ν] in
theorem Free.not_mem {s : ν → Option (List ν)} {x a : ν} {zs : List ν} (hfree : Free s x)
    (ha : s a = some zs) (hne : a ≠ x) : x ∉ a :: zs := by
  have hentry := hfree.entry a
  rw [ha] at hentry
  exact List.not_mem_cons_of_ne_of_not_mem hne.symm hentry

namespace Holds

open Function (update update_self update_of_ne)

variable {s : ν → Option (List ν)} {head list entry new : ν} {xs ys : List ν}

omit [DecidableEq ν] in
theorem of_none (h : ListMem ν) : h.Holds fun _ => none :=
  ⟨fun _ _ hnone => (by cases hnone), fun _ _ _ _ _ hnone => (by cases hnone)⟩

/-- A list is not looked at any more. -/
theorem forget (hh : h.Holds s) (x : ν) : h.Holds (update s x none) := by
  have hold : ∀ a zs, update s x none a = some zs → s a = some zs := fun a zs ha => by
    by_cases hax : a = x
    · rw [hax, update_self] at ha
      cases ha
    · rwa [update_of_ne hax] at ha
  exact ⟨fun a zs ha => hh.ring a zs (hold a zs ha), fun a b zs ws hne ha hb =>
    hh.apart a b zs ws hne (hold a zs ha) (hold b ws hb)⟩

/-- Nodes `touched` are written, and one list is left on them. -/
theorem change (hh : h.Holds s) (touched : List ν) (hring : h'.Ring head xs)
    (hkeep : ∀ z, z ∉ touched → h'.node z = h.node z) (hsub : head :: xs ⊆ touched)
    (hapart : ∀ a zs, a ≠ head → s a = some zs → (a :: zs).Disjoint touched) :
    h'.Holds (update s head (some xs)) := by
  refine ⟨fun a zs ha => ?_, fun a b zs ws hne ha hb => ?_⟩
  · by_cases hah : a = head
    · obtain rfl := hah
      rw [update_self] at ha
      cases ha
      exact hring
    · rw [update_of_ne hah] at ha
      exact (hh.ring a zs ha).frame fun z hz => hkeep z fun hin => hapart a zs hah ha hz hin
  · by_cases hah : a = head
    · obtain rfl := hah
      rw [update_self] at ha
      rw [update_of_ne hne.symm] at hb
      cases ha
      exact fun z hz hz' => hapart b ws hne.symm hb hz' (hsub hz)
    · rw [update_of_ne hah] at ha
      by_cases hbh : b = head
      · obtain rfl := hbh
        rw [update_self] at hb
        cases hb
        exact fun z hz hz' => hapart a zs hah ha hz (hsub hz')
      · rw [update_of_ne hbh] at hb
        exact hh.apart a b zs ws hne ha hb

/-- The empty list of a node that is initialised. -/
theorem init (hh : h.Holds s) (hfree : Free s list) :
    (h.initListHead list).Holds (update s list (some [])) := by
  refine hh.change [list] ring_initListHead (fun z hz => ?_) (List.Subset.refl _)
    fun a zs hne ha => ?_
  · exact node_initListHead_ne (List.ne_of_not_mem_cons hz)
  · exact List.disjoint_singleton.2 (hfree.not_mem ha hne)

/-- A free node is taken into a list. -/
theorem link (hh : h.Holds s) (hhead : s head = some xs) (hfree : Free s new)
    (hring : h'.Ring head ys) (hkeep : ∀ z, z ∉ new :: head :: xs → h'.node z = h.node z)
    (hsub : head :: ys ⊆ new :: head :: xs) :
    h'.Holds (update (update s new none) head (some ys)) := by
  refine (hh.forget new).change (new :: head :: xs) hring hkeep hsub fun a zs hah ha => ?_
  have han : a ≠ new := fun heq => by
    rw [heq, update_self] at ha
    cases ha
  rw [update_of_ne han] at ha
  exact List.disjoint_cons_right.2 ⟨hfree.not_mem ha han, hh.apart a head zs xs hah ha hhead⟩

theorem listAdd (hh : h.Holds s) (hhead : s head = some xs) (hfree : Free s new)
    (hne : new ≠ head) :
    ∃ h', h.listAdd new head = some h' ∧
      h'.Holds (update (update s new none) head (some (new :: xs))) := by
  obtain ⟨h', hrun, hring, hkeep⟩ :=
    (hh.ring head xs hhead).listAdd (hfree.not_mem hhead hne.symm)
  exact ⟨h', hrun, hh.link hhead hfree hring hkeep (List.Perm.swap new head xs).subset⟩

theorem listAddTail (hh : h.Holds s) (hhead : s head = some xs) (hfree : Free s new)
    (hne : new ≠ head) :
    ∃ h', h.listAddTail new head = some h' ∧
      h'.Holds (update (update s new none) head (some (xs ++ [new]))) := by
  obtain ⟨h', hrun, hring, hkeep⟩ :=
    (hh.ring head xs hhead).listAddTail (hfree.not_mem hhead hne.symm)
  exact ⟨h', hrun, hh.link hhead hfree hring hkeep
    (List.perm_append_singleton new (head :: xs)).subset⟩

omit [DecidableEq ν] in
/-- An entry is the head of no list. -/
theorem not_head (hh : h.Holds s) (hhead : s head = some xs) (hentry : entry ∈ xs) :
    s entry = none := by
  cases hs : s entry with
  | none => rfl
  | some zs =>
    have hne : entry ≠ head := fun heq =>
      (List.nodup_cons.1 (hh.ring head xs hhead).nodup).1 (heq ▸ hentry)
    exact absurd (List.mem_cons_of_mem head hentry)
      (hh.apart entry head zs xs hne hs hhead List.mem_cons_self)

omit [DecidableEq ν] in
/-- An entry stands in no other list. -/
theorem not_elsewhere (hh : h.Holds s) (hhead : s head = some xs) (hentry : entry ∈ xs) {a : ν}
    {zs : List ν} (hne : a ≠ head) (ha : s a = some zs) : entry ∉ zs := fun hin =>
  hh.apart a head zs xs hne ha hhead (List.mem_cons_of_mem a hin) (List.mem_cons_of_mem head hentry)

theorem free_removed (hh : h.Holds s) (hhead : s head = some (xs ++ entry :: ys)) :
    Free (update s head (some (xs ++ ys))) entry := by
  have hentry : entry ∈ xs ++ entry :: ys := List.mem_append_right _ List.mem_cons_self
  have hnodup := (hh.ring head _ hhead).nodup
  have hne : entry ≠ head := fun heq => (List.nodup_cons.1 hnodup).1 (heq ▸ hentry)
  refine ⟨?_, fun a => ?_⟩
  · rw [update_of_ne hne, hh.not_head hhead hentry, Option.getD_none]
  · by_cases hah : a = head
    · rw [hah, update_self, Option.getD_some]
      exact (List.nodup_cons.1 (List.perm_middle.nodup_iff.1 (List.nodup_cons.1 hnodup).2)).1
    · rw [update_of_ne hah]
      cases ha : s a with
      | none => exact List.not_mem_nil
      | some zs => exact hh.not_elsewhere hhead hentry hah ha

/-- Nodes of one list are written, and what is left of the list is on them. -/
theorem shrink (hh : h.Holds s) (hhead : s head = some xs) (hring : h'.Ring head ys)
    (hkeep : ∀ z, z ∉ head :: xs → h'.node z = h.node z) (hsub : ys ⊆ xs) :
    h'.Holds (update s head (some ys)) :=
  hh.change (head :: xs) hring hkeep (List.cons_subset_cons head hsub) fun a zs hah ha =>
    hh.apart a head zs xs hah ha hhead

theorem listDelEntry (hh : h.Holds s) (hhead : s head = some (xs ++ entry :: ys)) :
    ∃ h', h.listDelEntry entry = some h' ∧ h'.Holds (update s head (some (xs ++ ys))) := by
  obtain ⟨h', hrun, hring, hkeep⟩ := (hh.ring head _ hhead).listDelEntry
  have hsub : xs ++ ys ⊆ xs ++ entry :: ys :=
    ((List.sublist_cons_self entry ys).append_left xs).subset
  exact ⟨h', hrun, hh.shrink hhead hring
    (fun z hz => hkeep z fun hin => hz (List.cons_subset_cons head hsub hin)) hsub⟩

theorem listDel {poison : ν × ν} (hh : h.Holds s) (hhead : s head = some (xs ++ entry :: ys)) :
    ∃ h', h.listDel poison entry = some h' ∧ h'.Holds (update s head (some (xs ++ ys))) := by
  obtain ⟨h', hrun, hring, hkeep⟩ := (hh.ring head _ hhead).listDel
  exact ⟨h', hrun, hh.shrink hhead hring hkeep
    ((List.sublist_cons_self entry ys).append_left xs).subset⟩

omit [DecidableEq ν] in
/-- Only nodes that are looked at no more are written. -/
theorem keep (hh : h.Holds s) (touched : List ν) (hkeep : ∀ z, z ∉ touched → h'.node z = h.node z)
    (hapart : ∀ a zs, s a = some zs → (a :: zs).Disjoint touched) : h'.Holds s :=
  ⟨fun a zs ha => (hh.ring a zs ha).frame fun z hz => hkeep z fun hin => hapart a zs ha hz hin,
    hh.apart⟩

theorem listDel_lone {poison : ν × ν} (hh : h.Holds s) (hlone : s entry = some []) :
    ∃ h', h.listDel poison entry = some h' ∧ h'.Holds (update s entry none) := by
  obtain ⟨h₁, hdel, hkeep⟩ := (hh.ring entry [] hlone).listDelEntry_lone
  refine ⟨(h₁.setNext entry (some poison.1)).setPrev entry (some poison.2), ?_, ?_⟩
  · simp only [ListMem.listDel, hdel, Option.bind_eq_bind, Option.bind_some, Option.pure_def]
  · refine (hh.forget entry).keep [entry] (fun z hz => ?_) fun a zs ha => ?_
    · have hne : z ≠ entry := List.ne_of_not_mem_cons hz
      rw [node_setPrev_ne hne, node_setNext_ne hne, hkeep z hz]
    · have hae : a ≠ entry := fun heq => by
        rw [heq, update_self] at ha
        cases ha
      rw [update_of_ne hae] at ha
      exact hh.apart a entry zs [] hae ha hlone

theorem listDelInit_lone (hh : h.Holds s) (hlone : s entry = some []) :
    ∃ h', h.listDelInit entry = some h' ∧ h'.Holds s := by
  obtain ⟨h₁, hdel, hkeep⟩ := (hh.ring entry [] hlone).listDelEntry_lone
  refine ⟨h₁.initListHead entry, ?_, ?_⟩
  · simp only [ListMem.listDelInit, hdel, Option.bind_eq_bind, Option.bind_some, Option.pure_def]
  · have hkept := hh.change [entry] (@ring_initListHead _ _ h₁ entry) (fun z hz => ?_)
      (List.Subset.refl _) fun a zs hae ha => hh.apart a entry zs [] hae ha hlone
    · rwa [Function.update_eq_self_iff.2 hlone.symm] at hkept
    · rw [node_initListHead_ne (List.ne_of_not_mem_cons hz), hkeep z hz]

theorem listDelInit (hh : h.Holds s) (hhead : s head = some (xs ++ entry :: ys)) :
    ∃ h', h.listDelInit entry = some h' ∧
      h'.Holds (update (update s head (some (xs ++ ys))) entry (some [])) := by
  obtain ⟨h', hrun, hh'⟩ := hh.listDelEntry hhead
  refine ⟨h'.initListHead entry, ?_, hh'.init (hh.free_removed hhead)⟩
  simp only [ListMem.listDelInit, hrun, Option.bind_eq_bind, Option.bind_some, Option.pure_def]

theorem listMoveTail (hh : h.Holds s) (hhead : s head = some (xs ++ entry :: ys)) {target : ν}
    {zs : List ν} (htarget : update s head (some (xs ++ ys)) target = some zs) :
    ∃ h', h.listMoveTail entry target = some h' ∧
      h'.Holds (update (update s head (some (xs ++ ys))) target (some (zs ++ [entry]))) := by
  obtain ⟨h₁, hdel, hh₁⟩ := hh.listDelEntry hhead
  have hfree := hh.free_removed hhead
  have hentry : entry ∈ xs ++ entry :: ys := List.mem_append_right _ List.mem_cons_self
  have hne : entry ≠ head := fun heq =>
    (List.nodup_cons.1 (hh.ring head _ hhead).nodup).1 (heq ▸ hentry)
  have hnone : update s head (some (xs ++ ys)) entry = none := by
    rw [update_of_ne hne, hh.not_head hhead hentry]
  have hento : entry ≠ target := fun heq => by
    rw [← heq, hnone] at htarget
    cases htarget
  obtain ⟨h', hadd, hh'⟩ := hh₁.listAddTail htarget hfree hento
  have hsame : update (update s head (some (xs ++ ys))) entry none =
      update s head (some (xs ++ ys)) := Function.update_eq_self_iff.2 hnone.symm
  refine ⟨h', ?_, ?_⟩
  · simp only [ListMem.listMoveTail, hdel, Option.bind_eq_bind, Option.bind_some, hadd]
  · rwa [hsame] at hh'

theorem listSpliceInit (hh : h.Holds s) (hlist : s list = some xs) (hhead : s head = some ys)
    (hne : list ≠ head) :
    ∃ h', h.listSpliceInit list head = some h' ∧
      h'.Holds (update (update s head (some (xs ++ ys))) list (some [])) := by
  have hapart := hh.apart list head xs ys hne hlist hhead
  obtain ⟨h', hrun, hempty, hring, hkeep⟩ :=
    (hh.ring list xs hlist).listSpliceInit (hh.ring head ys hhead) hapart
  refine ⟨h', hrun, ?_⟩
  have hsub : head :: (xs ++ ys) ⊆ (list :: xs) ++ (head :: ys) := fun z hz => by
    simp only [List.mem_append, List.mem_cons] at hz ⊢
    tauto
  have hold : ∀ a zs, a ≠ list → update s list none a = some zs → s a = some zs :=
    fun a zs hal ha => by rwa [update_of_ne hal] at ha
  have hlist' : ∀ a zs, update s list none a = some zs → a ≠ list := fun a zs ha heq => by
    rw [heq, update_self] at ha
    cases ha
  have hh₁ : h'.Holds (update (update s list none) head (some (xs ++ ys))) := by
    refine (hh.forget list).change _ hring (fun z hz => ?_) hsub fun a zs hah ha => ?_
    · rw [List.mem_append, not_or] at hz
      exact hkeep z hz.1 hz.2
    · have hal := hlist' a zs ha
      have hold := hold a zs hal ha
      exact List.disjoint_append_right.2
        ⟨hh.apart a list zs xs hal hold hlist, hh.apart a head zs ys hah hold hhead⟩
  have hh₂ := hh₁.change [list] hempty (fun _ _ => rfl) (List.Subset.refl _) fun a zs hal ha => by
    refine List.disjoint_singleton.2 ?_
    by_cases hah : a = head
    · rw [hah, update_self] at ha
      cases ha
      rw [hah]
      intro hin
      have hperm : (head :: (xs ++ ys)).Perm (xs ++ head :: ys) := List.perm_middle.symm
      rcases List.mem_append.1 (hperm.mem_iff.1 hin) with hin | hin
      · exact (List.nodup_cons.1 (hh.ring list xs hlist).nodup).1 hin
      · exact hapart List.mem_cons_self hin
    · rw [update_of_ne hah] at ha
      exact fun hin => hh.apart a list zs xs hal (hold a zs hal ha) hlist hin List.mem_cons_self
  rwa [Function.update_comm hne.symm, Function.update_idem, Function.update_comm hne] at hh₂

end Holds

-- ---------------------------------------------------------------------------
-- Runs
-- ---------------------------------------------------------------------------

/-- A call of a function of `list.h` that writes. -/
inductive ListOp (ν : Type) where
  | init (list : ν)
  | add (new head : ν)
  | addTail (new head : ν)
  | del (entry : ν)
  | delInit (entry : ν)
  | moveTail (list head : ν)
  | spliceInit (list head : ν)

/-- The lists without an entry. -/
def without (s : ν → Option (List ν)) (entry : ν) : ν → Option (List ν) := fun a =>
  (s a).map fun xs => xs.erase entry

namespace ListOp

open Function (update update_self update_of_ne)

def run (poison : ν × ν) (h : ListMem ν) : ListOp ν → Option (ListMem ν)
  | .init list => some (h.initListHead list)
  | .add new head => h.listAdd new head
  | .addTail new head => h.listAddTail new head
  | .del entry => h.listDel poison entry
  | .delInit entry => h.listDelInit entry
  | .moveTail list head => h.listMoveTail list head
  | .spliceInit list head => h.listSpliceInit list head

/-- What the call does to the lists. -/
def apply (s : ν → Option (List ν)) : ListOp ν → ν → Option (List ν)
  | .init list => update s list (some [])
  | .add new head => update (update s new none) head (some (new :: (s head).getD []))
  | .addTail new head => update (update s new none) head (some ((s head).getD [] ++ [new]))
  | .del entry => update (without s entry) entry none
  | .delInit entry => update (without s entry) entry (some [])
  | .moveTail list head =>
    update (without s list) head (some (((s head).getD []).erase list ++ [list]))
  | .spliceInit list head =>
    update (update s head (some ((s list).getD [] ++ (s head).getD []))) list (some [])

/-- What the callers keep to: a node is added that stands in no list, an entry is taken out that
    stands in one or is initialised, and the heads are initialised. -/
def Allowed (s : ν → Option (List ν)) : ListOp ν → Prop
  | .init list => Free s list
  | .add new head => Free s new ∧ new ≠ head ∧ (s head).isSome
  | .addTail new head => Free s new ∧ new ≠ head ∧ (s head).isSome
  | .del entry => s entry = some [] ∨ ∃ a, entry ∈ (s a).getD []
  | .delInit entry => s entry = some [] ∨ ∃ a, entry ∈ (s a).getD []
  | .moveTail list head => (∃ a, list ∈ (s a).getD []) ∧ (s head).isSome
  | .spliceInit list head => list ≠ head ∧ (s list).isSome ∧ (s head).isSome

end ListOp

/-- A run of calls, from the first one on. -/
def runOps (poison : ν × ν) (h : ListMem ν) (ops : List (ListOp ν)) : Option (ListMem ν) :=
  ops.foldlM (fun h op => op.run poison h) h

/-- The lists after a run. -/
def listsAfter (s : ν → Option (List ν)) (ops : List (ListOp ν)) : ν → Option (List ν) :=
  ops.foldl ListOp.apply s

/-- Every call of a run is allowed where it is made. -/
def AllAllowed (s : ν → Option (List ν)) : List (ListOp ν) → Prop
  | [] => True
  | op :: ops => op.Allowed s ∧ AllAllowed (op.apply s) ops

section Decide

variable [Fintype ν] (s : ν → Option (List ν))

instance (x : ν) : Decidable (Free s x) :=
  decidable_of_iff ((s x).getD [] = [] ∧ ∀ a, x ∉ (s a).getD [])
    ⟨fun hfree => ⟨hfree.1, hfree.2⟩, fun hfree => ⟨hfree.head, hfree.entry⟩⟩

instance : (op : ListOp ν) → Decidable (op.Allowed s)
  | .init list => inferInstanceAs (Decidable (Free s list))
  | .add new head => inferInstanceAs (Decidable (Free s new ∧ new ≠ head ∧ (s head).isSome))
  | .addTail new head => inferInstanceAs (Decidable (Free s new ∧ new ≠ head ∧ (s head).isSome))
  | .del entry => inferInstanceAs (Decidable (s entry = some [] ∨ ∃ a, entry ∈ (s a).getD []))
  | .delInit entry => inferInstanceAs (Decidable (s entry = some [] ∨ ∃ a, entry ∈ (s a).getD []))
  | .moveTail list head =>
    inferInstanceAs (Decidable ((∃ a, list ∈ (s a).getD []) ∧ (s head).isSome))
  | .spliceInit list head =>
    inferInstanceAs (Decidable (list ≠ head ∧ (s list).isSome ∧ (s head).isSome))

end Decide

instance AllAllowed.decidable [Fintype ν] :
    (s : ν → Option (List ν)) → (ops : List (ListOp ν)) → Decidable (AllAllowed s ops)
  | _, [] => isTrue trivial
  | s, op :: ops =>
    have := AllAllowed.decidable (op.apply s) ops
    inferInstanceAs (Decidable (op.Allowed s ∧ AllAllowed (op.apply s) ops))

section Run

open Function (update update_self update_of_ne)

variable (poison : ν × ν) {s : ν → Option (List ν)} {entry head : ν} {xs ys : List ν}

theorem runOps_append {ops ops' : List (ListOp ν)} (hrun : h.runOps poison ops = some h') :
    h.runOps poison (ops ++ ops') = h'.runOps poison ops' := by
  have hops : ops.foldlM (fun h op => op.run poison h) h = some h' := hrun
  rw [runOps, List.foldlM_append, hops]
  rfl

theorem runOps_one (op : ListOp ν) (hrun : op.run poison h = some h') :
    h.runOps poison [op] = some h' := by
  simp only [runOps, List.foldlM_cons, hrun, Option.bind_eq_bind, Option.bind_some,
    List.foldlM_nil, Option.pure_def]

omit [DecidableEq ν] in
/-- The place of an entry. -/
theorem Holds.place (hentry : ∃ a, entry ∈ (s a).getD []) :
    ∃ a xs ys, s a = some (xs ++ entry :: ys) := by
  obtain ⟨a, hin⟩ := hentry
  cases ha : s a with
  | none =>
    rw [ha] at hin
    cases hin
  | some zs =>
    rw [ha] at hin
    obtain ⟨xs, ys, rfl⟩ := List.append_of_mem hin
    exact ⟨a, xs, ys, ha⟩

/-- An entry is taken out of its list only. -/
theorem Holds.without_eq (hh : h.Holds s) (hhead : s head = some (xs ++ entry :: ys)) :
    without s entry = update s head (some (xs ++ ys)) := by
  have hentry : entry ∈ xs ++ entry :: ys := List.mem_append_right _ List.mem_cons_self
  funext a
  by_cases hah : a = head
  · have hnodup := (List.nodup_cons.1 (hh.ring head _ hhead).nodup).2
    have hout : entry ∉ xs := fun hin =>
      (List.nodup_append'.1 hnodup).2.2 hin List.mem_cons_self
    rw [hah, update_self, without, hhead, Option.map_some, List.erase_append_right _ hout,
      List.erase_cons_head]
  · rw [update_of_ne hah, without]
    cases ha : s a with
    | none => rfl
    | some zs =>
      rw [Option.map_some, List.erase_of_not_mem (hh.not_elsewhere hhead hentry hah ha)]

/-- An initialised node stands in no list. -/
theorem Holds.without_lone (hh : h.Holds s) (hlone : s entry = some []) : without s entry = s := by
  funext a
  rw [without]
  cases ha : s a with
  | none => rfl
  | some zs =>
    rw [Option.map_some, List.erase_of_not_mem]
    intro hin
    by_cases hae : a = entry
    · rw [hae, hlone] at ha
      cases ha
      cases hin
    · exact hh.apart a entry zs [] hae ha hlone (List.mem_cons_of_mem a hin) List.mem_cons_self

/-- A call that is allowed follows no null pointer, and does to the lists what it stands for. -/
theorem Holds.step (hh : h.Holds s) {op : ListOp ν} (hop : op.Allowed s) :
    ∃ h', op.run poison h = some h' ∧ h'.Holds (op.apply s) := by
  cases op with
  | init list => exact ⟨_, rfl, hh.init hop⟩
  | add new head =>
    obtain ⟨hfree, hne, hsome⟩ := hop
    obtain ⟨xs, hhead⟩ := Option.isSome_iff_exists.1 hsome
    rw [ListOp.apply, hhead, Option.getD_some]
    exact hh.listAdd hhead hfree hne
  | addTail new head =>
    obtain ⟨hfree, hne, hsome⟩ := hop
    obtain ⟨xs, hhead⟩ := Option.isSome_iff_exists.1 hsome
    rw [ListOp.apply, hhead, Option.getD_some]
    exact hh.listAddTail hhead hfree hne
  | del entry =>
    rcases hop with hlone | hlinked
    · rw [ListOp.apply, hh.without_lone hlone]
      exact hh.listDel_lone hlone
    · obtain ⟨a, xs, ys, ha⟩ := Holds.place hlinked
      rw [ListOp.apply, hh.without_eq ha]
      obtain ⟨h', hrun, hh'⟩ := hh.listDel ha
      exact ⟨h', hrun, hh'.forget entry⟩
  | delInit entry =>
    rcases hop with hlone | hlinked
    · rw [ListOp.apply, hh.without_lone hlone, Function.update_eq_self_iff.2 hlone.symm]
      exact hh.listDelInit_lone hlone
    · obtain ⟨a, xs, ys, ha⟩ := Holds.place hlinked
      rw [ListOp.apply, hh.without_eq ha]
      exact hh.listDelInit ha
  | moveTail list head =>
    obtain ⟨hlinked, hsome⟩ := hop
    obtain ⟨a, xs, ys, ha⟩ := Holds.place hlinked
    obtain ⟨zs, hhead⟩ := Option.isSome_iff_exists.1 hsome
    have hafter : without s list head = some (zs.erase list) := by
      rw [without, hhead, Option.map_some]
    rw [ListOp.apply, hhead, Option.getD_some, hh.without_eq ha]
    rw [hh.without_eq ha] at hafter
    exact hh.listMoveTail ha hafter
  | spliceInit list head =>
    obtain ⟨hne, hsome, hsome'⟩ := hop
    obtain ⟨xs, hlist⟩ := Option.isSome_iff_exists.1 hsome
    obtain ⟨ys, hhead⟩ := Option.isSome_iff_exists.1 hsome'
    rw [ListOp.apply, hlist, hhead, Option.getD_some, Option.getD_some]
    exact hh.listSpliceInit hlist hhead hne

theorem Holds.run (hh : h.Holds s) {ops : List (ListOp ν)} (hops : AllAllowed s ops) :
    ∃ h', h.runOps poison ops = some h' ∧ h'.Holds (listsAfter s ops) := by
  induction ops generalizing h s with
  | nil => exact ⟨h, rfl, hh⟩
  | cons op ops ih =>
    obtain ⟨h₁, hfirst, hh₁⟩ := hh.step poison hops.1
    obtain ⟨h', hrest, hh'⟩ := ih hh₁ hops.2
    refine ⟨h', ?_, hh'⟩
    rw [runOps, List.foldlM_cons, hfirst]
    exact hrest

/-- Lists in memory. From any memory, any run of calls that the callers may make follows no null
    pointer and ends in a memory that holds the lists that the calls stand for: the test for an
    empty list, the test for the last entry and a traversal all answer from these lists. -/
theorem listsInMemory (h : ListMem ν) (ops : List (ListOp ν))
    (hops : AllAllowed (fun _ => none) ops) :
    ∃ h', h.runOps poison ops = some h' ∧
      ∀ head xs, listsAfter (fun _ => none) ops head = some xs →
        (head :: xs).Nodup ∧ (h'.listEmpty head = true ↔ xs = []) ∧
        h'.listForEachEntry head xs.length = some xs ∧
        ∀ entry ∈ xs, (h'.listIsLast entry head = true ↔ xs.getLast? = some entry) := by
  obtain ⟨h', hrun, hh'⟩ := (Holds.of_none h).run poison hops
  refine ⟨h', hrun, fun head xs hhead => ?_⟩
  have hring := hh'.ring head xs hhead
  exact ⟨hring.nodup, hring.listEmpty_iff, hring.listForEachEntry,
    fun entry hentry => hring.listIsLast_iff hentry⟩

/-- Two entries of one list, of which one is moved to another list and one is taken out twice. -/
theorem listsInMemory_two_lists : ∃ h', (⟨fun _ => ⟨none, none⟩⟩ : ListMem (Fin 4)).runOps (0, 0)
      [.init 0, .init 3, .init 1, .addTail 1 0, .addTail 2 0, .moveTail 1 3, .delInit 2, .del 2] =
        some h' ∧
    h'.listEmpty 0 = true ∧ h'.listForEachEntry 3 1 = some [1] := by
  obtain ⟨h', hrun, hlists⟩ := listsInMemory (0, 0) (⟨fun _ => ⟨none, none⟩⟩ : ListMem (Fin 4))
    [.init 0, .init 3, .init 1, .addTail 1 0, .addTail 2 0, .moveTail 1 3, .delInit 2, .del 2]
    (by decide)
  exact ⟨h', hrun, (hlists 0 [] (by decide)).2.1.2 rfl, (hlists 3 [1] (by decide)).2.2.1⟩

end Run

end ListMem

end Duperemove
