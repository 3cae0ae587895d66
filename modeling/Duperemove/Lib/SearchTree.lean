-- SUMMARY: Binary search trees with hand-written descents: lookup and insertion agree under any rebalancing that keeps the order.
import Mathlib.Data.List.Basic

/-!
# Search trees

A search tree as C programs write it: the program descends from the root by comparing
keys, links a new node where the descent ends, and leaves the rebalancing to a library
that keeps the order of the nodes. The comparison is a parameter, so trees that descend
the other way round are an instance. In an ordered tree the lookup finds exactly the
node with the key, and the insertion meets a node exactly when the key is there.
-/

namespace SearchTree

inductive KeyTree (α : Type) where
  | nil
  | node (left : KeyTree α) (x : α) (right : KeyTree α)
  deriving DecidableEq, Repr

variable {α κ : Type}

namespace KeyTree

/-- The nodes in the order of `rb_next`. -/
def inorder : KeyTree α → List α
  | nil => []
  | node left x right => left.inorder ++ x :: right.inorder

theorem inorder_eq_nil_iff {t : KeyTree α} : t.inorder = [] ↔ t = nil := by
  cases t <;> simp [inorder]

/-- The descent of a lookup. `dir` says on which side of a node the key lies. -/
def find (dir : α → Ordering) : KeyTree α → Option α
  | nil => none
  | node left x right =>
    match dir x with
    | .lt => left.find dir
    | .eq => some x
    | .gt => right.find dir

/-- The descent of an insertion, and the new node linked at its end. `none` when it meets a
    node with the key. -/
def link (dir : α → Ordering) (new : α) : KeyTree α → Option (KeyTree α)
  | nil => some (node nil new nil)
  | node left x right =>
    match dir x with
    | .lt => (left.link dir new).map fun left => node left x right
    | .eq => none
    | .gt => (right.link dir new).map fun right => node left x right

/-- A tree that is a list. -/
def ofList : List α → KeyTree α
  | [] => nil
  | x :: xs => node nil x (ofList xs)

@[simp] theorem inorder_ofList (xs : List α) : (ofList xs).inorder = xs := by
  induction xs with
  | nil => rfl
  | cons x xs ih => rw [ofList, inorder, ih, inorder, List.nil_append]

/-- Every node is written in place, where it is. -/
def map (f : α → α) : KeyTree α → KeyTree α
  | nil => nil
  | node left x right => node (left.map f) (f x) (right.map f)

@[simp] theorem inorder_map (f : α → α) (t : KeyTree α) : (t.map f).inorder = t.inorder.map f := by
  induction t with
  | nil => rfl
  | node left x right ihl ihr =>
    rw [map, inorder, ihl, ihr, inorder, List.map_append, List.map_cons]

/-- The keys increase from left to right. -/
def Ordered (cmp : κ → κ → Ordering) (key : α → κ) (t : KeyTree α) : Prop :=
  t.inorder.Pairwise fun x y => cmp (key x) (key y) = .lt

/-- On which side of a node a key lies. -/
def side (cmp : κ → κ → Ordering) (key : α → κ) (k : κ) (x : α) : Ordering := cmp k (key x)

end KeyTree

/-- A library that rebalances: what it does after an insertion, and how it removes a node. -/
structure Balance (α : Type) [DecidableEq α] where
  insertColor : KeyTree α → KeyTree α
  erase : KeyTree α → α → KeyTree α
  inorder_insertColor : ∀ t, (insertColor t).inorder = t.inorder
  inorder_erase : ∀ t x, (erase t x).inorder = t.inorder.erase x

/-- No rebalancing at all. -/
def Balance.none (α : Type) [DecidableEq α] : Balance α where
  insertColor := id
  erase := fun t x => .ofList (t.inorder.erase x)
  inorder_insertColor := fun _ => rfl
  inorder_erase := fun _ _ => KeyTree.inorder_ofList _

namespace KeyTree

variable {cmp : κ → κ → Ordering} {key : α → κ} {t t' left right : KeyTree α} {k : κ} {x y new : α}

/-! ## Order -/

theorem ordered_node_iff : (node left x right).Ordered cmp key ↔
    left.Ordered cmp key ∧ right.Ordered cmp key ∧
      (∀ y ∈ left.inorder, cmp (key y) (key x) = .lt) ∧
      (∀ y ∈ right.inorder, cmp (key x) (key y) = .lt) ∧
      ∀ y ∈ left.inorder, ∀ z ∈ right.inorder, cmp (key y) (key z) = .lt := by
  simp only [Ordered, inorder, List.pairwise_append, List.pairwise_cons, List.mem_cons,
    forall_eq_or_imp]
  constructor
  · rintro ⟨hleft, ⟨hx, hright⟩, hcross⟩
    exact ⟨hleft, hright, fun y hy => (hcross y hy).1, hx, fun y hy => (hcross y hy).2⟩
  · rintro ⟨hleft, hright, hbelow, hx, hcross⟩
    exact ⟨hleft, ⟨hx, hright⟩, fun y hy => ⟨hbelow y hy, hcross y hy⟩⟩

theorem ordered_of_inorder (h : t.Ordered cmp key) (heq : t'.inorder = t.inorder) :
    t'.Ordered cmp key := by
  rw [Ordered, heq]
  exact h

/-- Removing a node keeps the order. -/
theorem Ordered.erase [DecidableEq α] (h : t.Ordered cmp key) (b : Balance α) (x : α) :
    (b.erase t x).Ordered cmp key := by
  rw [Ordered, b.inorder_erase]
  exact List.Pairwise.sublist List.erase_sublist h

theorem map_eq_self {f : α → α} (h : ∀ x ∈ t.inorder, f x = x) : t.map f = t := by
  induction t with
  | nil => rfl
  | node left x right ihl ihr =>
    simp only [inorder, List.mem_append, List.mem_cons] at h
    rw [map, ihl fun y hy => h y (.inl hy), ihr fun y hy => h y (.inr (.inr hy)),
      h x (.inr (.inl rfl))]

/-- Writing to nodes keeps the order when it keeps their keys. -/
theorem Ordered.map (h : t.Ordered cmp key) {f : α → α}
    (hkey : ∀ x ∈ t.inorder, key (f x) = key x) : (t.map f).Ordered cmp key := by
  rw [Ordered, inorder_map, List.pairwise_map]
  refine List.Pairwise.imp_of_mem (fun hx hy hlt => ?_) h
  rw [hkey _ hx, hkey _ hy]
  exact hlt

/-- No key is there twice. -/
theorem Ordered.nodup_keys [Std.ReflCmp cmp] (h : t.Ordered cmp key) :
    (t.inorder.map key).Nodup := by
  rw [List.Nodup, List.pairwise_map]
  refine List.Pairwise.imp (fun {x y} hlt heq => ?_) h
  have hself : cmp (key y) (key y) = .eq := Std.ReflCmp.compare_self
  rw [heq, hself] at hlt
  cases hlt

/-- The nodes of an ordered tree determine their order. -/
theorem Ordered.inorder_eq_of_perm [Std.OrientedCmp cmp] (h : t.Ordered cmp key)
    (h' : t'.Ordered cmp key) (hperm : t.inorder.Perm t'.inorder) : t.inorder = t'.inorder := by
  refine List.Perm.eq_of_pairwise (fun x y _ _ hlt hgt => ?_) h h' hperm
  rw [Std.OrientedCmp.gt_of_lt hlt] at hgt
  cases hgt

/-! ## Insertion -/

/-- The new node comes somewhere between the others. -/
theorem inorder_link {dir : α → Ordering} (h : t.link dir new = some t') :
    ∃ before behind, t.inorder = before ++ behind ∧ t'.inorder = before ++ new :: behind := by
  induction t generalizing t' with
  | nil =>
    cases h
    exact ⟨[], [], rfl, rfl⟩
  | node left x right ihl ihr =>
    rw [link] at h
    split at h
    · obtain ⟨left', hleft, rfl⟩ := Option.map_eq_some_iff.1 h
      obtain ⟨before, behind, heq, heq'⟩ := ihl hleft
      refine ⟨before, behind ++ x :: right.inorder, ?_, ?_⟩
      · rw [inorder, heq, List.append_assoc]
      · rw [inorder, heq', List.append_assoc]
        rfl
    · cases h
    · obtain ⟨right', hright, rfl⟩ := Option.map_eq_some_iff.1 h
      obtain ⟨before, behind, heq, heq'⟩ := ihr hright
      refine ⟨left.inorder ++ x :: before, behind, ?_, ?_⟩
      · rw [inorder, heq, List.append_assoc]
        rfl
      · rw [inorder, heq', List.append_assoc]
        rfl

/-- The nodes after an insertion. -/
theorem perm_link {dir : α → Ordering} (h : t.link dir new = some t') :
    t'.inorder.Perm (new :: t.inorder) := by
  obtain ⟨before, behind, heq, heq'⟩ := inorder_link h
  rw [heq, heq']
  exact List.perm_middle

section Lawful

variable [Std.TransCmp cmp] [Std.LawfulEqCmp cmp]

/-- A lookup in an ordered tree finds the node with the key, and no other one. -/
theorem Ordered.find_eq_some_iff (h : t.Ordered cmp key) :
    t.find (side cmp key k) = some x ↔ x ∈ t.inorder ∧ key x = k := by
  have hself : ∀ k, cmp k k = .eq := fun k => Std.ReflCmp.compare_self
  induction t with
  | nil => simp [find, inorder]
  | node left y right ihl ihr =>
    obtain ⟨hleft, hright, hbelow, habove, -⟩ := ordered_node_iff.1 h
    simp only [find, inorder, List.mem_append, List.mem_cons]
    cases hside : side cmp key k y with
    | lt =>
      -- The key lies in front of this node, and so in front of all behind it.
      refine (ihl hleft).trans ⟨fun ⟨hx, hk⟩ => ⟨.inl hx, hk⟩, ?_⟩
      rintro ⟨hx | rfl | hx, rfl⟩
      · exact ⟨hx, rfl⟩
      · rw [side, hself] at hside
        cases hside
      · rw [side, Std.OrientedCmp.gt_of_lt (habove x hx)] at hside
        cases hside
    | eq =>
      have hk : k = key y := Std.LawfulEqCmp.compare_eq_iff_eq.1 hside
      simp only [Option.some.injEq]
      constructor
      · rintro rfl
        exact ⟨.inr (.inl rfl), hk.symm⟩
      · rintro ⟨hx | rfl | hx, hx'⟩
        · have hlt := hbelow x hx
          rw [hx', hk, hself] at hlt
          cases hlt
        · rfl
        · have hlt := habove x hx
          rw [hx', hk, hself] at hlt
          cases hlt
    | gt =>
      refine (ihr hright).trans ⟨fun ⟨hx, hk⟩ => ⟨.inr (.inr hx), hk⟩, ?_⟩
      rintro ⟨hx | rfl | hx, rfl⟩
      · rw [side, hbelow x hx] at hside
        cases hside
      · rw [side, hself] at hside
        cases hside
      · exact ⟨hx, rfl⟩

theorem Ordered.find_eq_none_iff (h : t.Ordered cmp key) :
    t.find (side cmp key k) = none ↔ ∀ x ∈ t.inorder, key x ≠ k := by
  rw [Option.eq_none_iff_forall_ne_some]
  constructor
  · exact fun hnone x hx hk => hnone x (h.find_eq_some_iff.2 ⟨hx, hk⟩)
  · exact fun hno x hx => hno x (h.find_eq_some_iff.1 hx).1 (h.find_eq_some_iff.1 hx).2

omit [Std.TransCmp cmp] [Std.LawfulEqCmp cmp] in
/-- The two descents go the same way. -/
theorem link_eq_none_iff {dir : α → Ordering} :
    t.link dir new = none ↔ ∃ x, t.find dir = some x := by
  induction t with
  | nil => simp [link, find]
  | node left y right ihl ihr =>
    simp only [link, find]
    cases dir y with
    | lt => simpa only [Option.map_eq_none_iff] using ihl
    | eq => simp
    | gt => simpa only [Option.map_eq_none_iff] using ihr

/-- An insertion into an ordered tree meets a node exactly when the key is there. -/
theorem Ordered.link_eq_none_iff (h : t.Ordered cmp key) :
    t.link (side cmp key k) new = none ↔ ∃ x ∈ t.inorder, key x = k := by
  rw [KeyTree.link_eq_none_iff]
  constructor
  · rintro ⟨x, hx⟩
    exact ⟨x, h.find_eq_some_iff.1 hx⟩
  · rintro ⟨x, hx⟩
    exact ⟨x, h.find_eq_some_iff.2 hx⟩

omit [Std.LawfulEqCmp cmp] in
/-- The insertion keeps the order. -/
theorem Ordered.link (h : t.Ordered cmp key)
    (hlink : t.link (side cmp key k) new = some t') (hk : key new = k) : t'.Ordered cmp key := by
  subst hk
  induction t generalizing t' with
  | nil =>
    cases hlink
    exact List.pairwise_singleton _ _
  | node left y right ihl ihr =>
    obtain ⟨hleft, hright, hbelow, habove, hcross⟩ := ordered_node_iff.1 h
    simp only [KeyTree.link] at hlink
    cases hside : side cmp key (key new) y with
    | lt =>
      rw [hside] at hlink
      obtain ⟨left', hlink', rfl⟩ := Option.map_eq_some_iff.1 hlink
      have hmem : ∀ z ∈ left'.inorder, z = new ∨ z ∈ left.inorder := fun z hz =>
        List.mem_cons.1 ((perm_link hlink').mem_iff.1 hz)
      refine ordered_node_iff.2 ⟨ihl hleft hlink', hright, fun z hz => ?_, habove,
        fun z hz w hw => ?_⟩
      · rcases hmem z hz with rfl | hz
        · exact hside
        · exact hbelow z hz
      · rcases hmem z hz with rfl | hz
        · exact Std.TransCmp.lt_trans hside (habove w hw)
        · exact hcross z hz w hw
    | eq =>
      rw [hside] at hlink
      cases hlink
    | gt =>
      rw [hside] at hlink
      obtain ⟨right', hlink', rfl⟩ := Option.map_eq_some_iff.1 hlink
      have hmem : ∀ z ∈ right'.inorder, z = new ∨ z ∈ right.inorder := fun z hz =>
        List.mem_cons.1 ((perm_link hlink').mem_iff.1 hz)
      have hgt : cmp (key y) (key new) = .lt := Std.OrientedCmp.lt_of_gt hside
      refine ordered_node_iff.2 ⟨hleft, ihr hright hlink', hbelow, fun z hz => ?_,
        fun w hw z hz => ?_⟩
      · rcases hmem z hz with rfl | hz
        · exact hgt
        · exact habove z hz
      · rcases hmem z hz with rfl | hz
        · exact Std.TransCmp.lt_trans (hbelow w hw) hgt
        · exact hcross w hw z hz

omit [Std.LawfulEqCmp cmp] in
/-- The rebalanced tree is ordered, and holds the new node with the others. -/
theorem Ordered.insertColor_link [DecidableEq α] (h : t.Ordered cmp key) (b : Balance α)
    (hk : key new = k) (hlink : t.link (side cmp key k) new = some t') :
    (b.insertColor t').Ordered cmp key ∧
      (b.insertColor t').inorder.Perm (new :: t.inorder) := by
  rw [Ordered, b.inorder_insertColor]
  exact ⟨h.link hlink hk, perm_link hlink⟩

/-- A node with a new key is linked. -/
theorem Ordered.exists_link [DecidableEq α] (h : t.Ordered cmp key) (b : Balance α)
    (hk : key new = k) (hno : ∀ x ∈ t.inorder, key x ≠ k) :
    ∃ t', t.link (side cmp key k) new = some t' ∧ (b.insertColor t').Ordered cmp key ∧
      (b.insertColor t').inorder.Perm (new :: t.inorder) := by
  cases hlink : t.link (side cmp key k) new with
  | none =>
    obtain ⟨x, hx, hxk⟩ := h.link_eq_none_iff.1 hlink
    exact absurd hxk (hno x hx)
  | some t' => exact ⟨t', rfl, h.insertColor_link b hk hlink⟩

end Lawful

end KeyTree

end SearchTree
