-- SUMMARY: Red-black trees on a path: repairing an insertion and a removal bottom-up keeps the order and the colors.
import Mathlib.Algebra.Group.Nat.Defs
import Mathlib.Data.Nat.Log

/-!
# Red-black trees

A red-black tree that is repaired from below, as libraries with parent pointers do it. The
place where a tree changes is a subtree with the path above it, the parent first. A repair
walks up this path. Both sides are one case: a node is built with its `near` child on the
side of the path and its `far` child on the other one.
-/

namespace RedBlack

inductive Color where
  | red
  | black
  deriving DecidableEq, Repr

inductive Side where
  | left
  | right
  deriving DecidableEq, Repr

def Side.other : Side → Side
  | left => right
  | right => left

/-- What lies on this side, of a pair from left to right. -/
def Side.pick {β : Type} (l r : β) : Side → β
  | left => l
  | right => r

inductive ColorTree (α : Type) where
  | nil
  | node (color : Color) (left : ColorTree α) (x : α) (right : ColorTree α)
  deriving DecidableEq, Repr

/-- A node on the path to a place, and its child off the path. -/
structure Frame (α : Type) where
  side : Side
  color : Color
  x : α
  far : ColorTree α
  deriving DecidableEq, Repr

variable {α : Type}

namespace ColorTree

def inorder : ColorTree α → List α
  | nil => []
  | node _ left x right => left.inorder ++ x :: right.inorder

/-- The color of the root. Null pointers are black. -/
def color : ColorTree α → Color
  | nil => .black
  | node c _ _ _ => c

def paint (c : Color) : ColorTree α → ColorTree α
  | nil => nil
  | node _ left x right => node c left x right

/-- The node with these children, seen from the side `s`. -/
def build (s : Side) (c : Color) (near : ColorTree α) (x : α) (far : ColorTree α) : ColorTree α :=
  node c (s.pick near far) x (s.pick far near)

end ColorTree

open ColorTree

def Frame.fill (f : Frame α) (t : ColorTree α) : ColorTree α := build f.side f.color t f.x f.far

/-- The whole tree around a place. -/
def plug : ColorTree α → List (Frame α) → ColorTree α
  | t, [] => t
  | t, f :: path => plug (f.fill t) path

-- ---------------------------------------------------------------------------
-- Insertion
-- ---------------------------------------------------------------------------

/-- The rotations at a red parent `f` below `g`, whose other child is black. The child on the
    inner side is first rotated up to its parent. -/
def rotateRed (t : ColorTree α) (f g : Frame α) : ColorTree α :=
  if f.side = g.side then
    build g.side g.color t f.x (build g.side .red (f.far.paint .black) g.x g.far)
  else
    match t with
    | .nil => g.fill (f.fill t)
    | .node _ l n r =>
      build g.side g.color
        (build g.side .red f.far f.x ((g.side.pick l r).paint .black)) n
        (build g.side .red ((g.side.pick r l).paint .black) g.x g.far)

/-- The repair above a red node. Two red nodes in a row move up by a flip of colors until a
    rotation takes them apart. -/
def insertColor : ColorTree α → List (Frame α) → ColorTree α
  | t, [] => t.paint .black
  | t, [f] => f.fill t
  | t, f :: g :: path =>
    match f.color, g.far.color with
    | .black, _ => plug t (f :: g :: path)
    | .red, .red =>
      insertColor (build g.side .red ({ f with color := .black }.fill t) g.x (g.far.paint .black))
        path
    | .red, .black => plug (rotateRed t f g) path

-- ---------------------------------------------------------------------------
-- Removal
-- ---------------------------------------------------------------------------

/-- The repair at one parent whose other child, the sibling, is black: the subtree at the
    parent, and whether it still lacks a black node. -/
def lend (t : ColorTree α) (f : Frame α) : ColorTree α × Bool :=
  match f.far with
  | .nil => (f.fill t, false)
  | .node _ l s r =>
    let inner := f.side.pick l r
    let outer := f.side.pick r l
    match outer.color with
    | .red => (build f.side f.color (build f.side .black t f.x inner) s (outer.paint .black), false)
    | .black =>
      match inner with
      | .node .red il i ir =>
        (build f.side f.color (build f.side .black t f.x (f.side.pick il ir)) i
          (build f.side .black ((f.side.pick ir il).paint .black) s outer), false)
      | _ => (build f.side .black t f.x (f.far.paint .red), f.color = .black)

/-- The repair above a subtree that lacks one black node. A red sibling is first rotated up
    to its parent, which makes the parent red. -/
def eraseColor : ColorTree α → List (Frame α) → ColorTree α
  | t, [] => t
  | t, f :: path =>
    match f.far with
    | .node .red l s r =>
      plug (lend t ⟨f.side, .red, f.x, (f.side.pick l r).paint .black⟩).1
        (⟨f.side, f.color, s, f.side.pick r l⟩ :: path)
    | _ =>
      match lend t f with
      | (u, false) => plug u path
      | (u, true) => eraseColor u path

/-- A node of color `c` leaves, and its only child takes its place in the color `c'`. -/
def splice (c c' : Color) (child : ColorTree α) (path : List (Frame α)) : ColorTree α :=
  match child, c with
  | .nil, .black => eraseColor .nil path
  | .nil, .red => plug .nil path
  | .node .., _ => plug (child.paint c') path

/-- The leftmost node below `path`: its color, the node, its right child, and the path to it. -/
def leftmost : ColorTree α → List (Frame α) → Option (Color × α × ColorTree α × List (Frame α))
  | .nil, _ => none
  | .node c .nil x right, path => some (c, x, right, path)
  | .node c left x right, path => leftmost left (⟨.left, c, x, right⟩ :: path)

/-- The removal of a node. With two children, its successor takes its place. -/
def erase (c : Color) (left right : ColorTree α) (path : List (Frame α)) : ColorTree α :=
  match left, leftmost right [] with
  | .nil, _ => splice c c right path
  | left, none => plug (left.paint c) path
  | left, some (cs, s, child, above) =>
    splice cs .black child (above ++ ⟨.right, c, s, left⟩ :: path)

-- ---------------------------------------------------------------------------
-- Order
-- ---------------------------------------------------------------------------

/-- The nodes in front of a place. -/
def before : List (Frame α) → List α
  | [] => []
  | f :: path => before path ++ f.side.pick [] (f.far.inorder ++ [f.x])

/-- The nodes behind a place. -/
def behind : List (Frame α) → List α
  | [] => []
  | f :: path => f.side.pick (f.x :: f.far.inorder) [] ++ behind path

section Order

variable {s : Side} {c c' : Color} {t near far left right : ColorTree α} {x : α} {f g : Frame α}
  {path : List (Frame α)}

@[simp] theorem Side.other_other : s.other.other = s := by cases s <;> rfl

@[simp] theorem Side.other_ne : s.other ≠ s := by cases s <;> decide

@[simp] theorem Side.ne_other : s ≠ s.other := by cases s <;> decide

theorem Side.eq_other {s s' : Side} (h : s ≠ s') : s = s'.other := by
  cases s <;> cases s' <;> first | rfl | exact absurd rfl h

@[simp] theorem inorder_paint : (t.paint c).inorder = t.inorder := by cases t <;> rfl

@[simp] theorem inorder_build : (build s c near x far).inorder =
    s.pick (near.inorder ++ x :: far.inorder) (far.inorder ++ x :: near.inorder) := by
  cases s <;> rfl

theorem inorder_plug : (plug t path).inorder = before path ++ t.inorder ++ behind path := by
  induction path generalizing t with
  | nil => simp [plug, before, behind]
  | cons f path ih =>
    rw [plug, ih, Frame.fill, inorder_build]
    cases hside : f.side <;> simp [before, behind, hside, Side.pick]

/-- Two trees with the same nodes in order are the same for the nodes around them. -/
theorem inorder_plug_congr {u : ColorTree α} (h : u.inorder = t.inorder) :
    (plug u path).inorder = (plug t path).inorder := by
  rw [inorder_plug, inorder_plug, h]

theorem inorder_rotateRed : (rotateRed t f g).inorder = (g.fill (f.fill t)).inorder := by
  rw [rotateRed.eq_def]
  split
  · next heq =>
    cases hside : g.side <;> simp [Frame.fill, heq, hside, Side.pick]
  · next hne =>
    cases t with
    | nil => rfl
    | node ct l n r =>
      have hf := Side.eq_other hne
      cases hside : g.side <;>
        simp [Frame.fill, hf, hside, Side.pick, Side.other, inorder]

theorem inorder_flip :
    (build g.side c (Frame.fill { f with color := c' } t) g.x (g.far.paint .black)).inorder =
      (g.fill (f.fill t)).inorder := by
  simp [Frame.fill]

/-- The repair of an insertion moves no node past another one. -/
theorem inorder_insertColor : (insertColor t path).inorder = (plug t path).inorder := by
  induction t, path using insertColor.induct with
  | case1 t => rw [insertColor, inorder_paint, plug]
  | case2 t f => rfl
  | case3 t f g path hf => rw [insertColor, hf]
  | case4 t f g path hg hf ih =>
    rw [insertColor, hf, hg]
    simp only
    rw [ih]
    exact inorder_plug_congr inorder_flip
  | case5 t f g path hg hf =>
    rw [insertColor, hf, hg]
    exact inorder_plug_congr inorder_rotateRed

/-- At a red parent the repair ends. -/
theorem lend_red (hred : f.color = .red) : (lend t f).2 = false := by
  rw [lend.eq_def]
  split
  · rfl
  · dsimp only
    split
    · rfl
    · split
      · rfl
      · simp [hred]

/-- Only the flip of colors leaves the parent one black node short. -/
theorem lend_short (hshort : (lend t f).2 = true) :
    (lend t f).1 = build f.side .black t f.x (f.far.paint .red) := by
  rw [lend.eq_def] at hshort ⊢
  split at hshort
  · cases hshort
  · dsimp only at hshort ⊢
    split at hshort
    · cases hshort
    · split at hshort
      · cases hshort
      · rfl

theorem inorder_lend : (lend t f).1.inorder = (f.fill t).inorder := by
  rw [lend]
  split
  · rfl
  · next cs l s r hfar =>
    rw [Frame.fill, inorder_build, hfar]
    dsimp only
    split
    · cases hside : f.side <;> simp [Side.pick, inorder]
    · split
      · next il i ir hinner =>
        cases hside : f.side <;> rw [hside] at hinner <;> simp only [Side.pick] at hinner <;>
          simp [Side.pick, inorder, hinner]
      · cases hside : f.side <;> simp [Side.pick, inorder]

theorem eraseColor_black (hblack : f.far.color = .black) : eraseColor t (f :: path) =
    if (lend t f).2 then eraseColor (lend t f).1 path else plug (lend t f).1 path := by
  rw [eraseColor]
  split
  · next hfar =>
    rw [hfar] at hblack
    cases hblack
  · split
    · next u heq => simp [heq]
    · next u heq => simp [heq]

/-- Nor does the repair of a removal. -/
theorem inorder_eraseColor : (eraseColor t path).inorder = (plug t path).inorder := by
  induction path generalizing t with
  | nil => rfl
  | cons f path ih =>
    rw [eraseColor]
    split
    · next l s r hfar =>
      rw [inorder_plug_congr inorder_lend, plug, plug]
      refine inorder_plug_congr ?_
      cases hside : f.side <;> simp [Frame.fill, hside, Side.pick, hfar, inorder]
    · have hlend := inorder_lend (t := t) (f := f)
      split
      · next u heq =>
        rw [heq] at hlend
        exact inorder_plug_congr hlend
      · next u heq =>
        rw [heq] at hlend
        exact ih.trans (inorder_plug_congr hlend)

theorem inorder_splice : (splice c c' t path).inorder = (plug t path).inorder := by
  rw [splice.eq_def]
  split
  · exact inorder_eraseColor
  · rfl
  · exact inorder_plug_congr inorder_paint

theorem plug_append {a b : List (Frame α)} : plug t (a ++ b) = plug (plug t a) b := by
  induction a generalizing t with
  | nil => rfl
  | cons f a ih => exact ih

theorem before_append {a b : List (Frame α)} : before (a ++ b) = before b ++ before a := by
  induction a with
  | nil => simp [before]
  | cons f a ih => simp [before, ih]

theorem behind_append {a b : List (Frame α)} : behind (a ++ b) = behind a ++ behind b := by
  induction a with
  | nil => simp [behind]
  | cons f a ih => simp [behind, ih]

/-- Each node of a tree has its place. -/
theorem exists_place {a b : List α} (h : t.inorder = a ++ x :: b) :
    ∃ c left right path, plug (.node c left x right) path = t ∧
      before path ++ left.inorder = a ∧ right.inorder ++ behind path = b := by
  induction t generalizing a b with
  | nil => simp [inorder] at h
  | node c l y r ihl ihr =>
    rw [inorder] at h
    rcases List.append_eq_append_iff.1 h with ⟨m, rfl, hm⟩ | ⟨m, hl, hm⟩
    · cases m with
      | nil =>
        cases hm
        exact ⟨c, l, r, [], rfl, by simp [before], by simp [behind]⟩
      | cons z m =>
        obtain ⟨rfl, hr⟩ := List.cons.inj hm
        obtain ⟨c', l', r', path, hplug, hbefore, hbehind⟩ := ihr hr
        refine ⟨c', l', r', path ++ [⟨.right, c, y, l⟩], ?_, ?_, ?_⟩
        · rw [plug_append, hplug]
          rfl
        · rw [before_append, ← hbefore]
          simp [before, Side.pick]
        · rw [behind_append, ← hbehind]
          simp [behind, Side.pick]
    · cases m with
      | nil =>
        cases hm
        rw [List.append_nil] at hl
        exact ⟨c, l, r, [], rfl, by simp [before, hl], by simp [behind]⟩
      | cons z m =>
        obtain ⟨rfl, rfl⟩ := List.cons.inj hm
        obtain ⟨c', l', r', path, hplug, hbefore, hbehind⟩ := ihl hl
        refine ⟨c', l', r', path ++ [⟨.left, c, y, r⟩], ?_, ?_, ?_⟩
        · rw [plug_append, hplug]
          rfl
        · rw [before_append, ← hbefore]
          simp [before, Side.pick]
        · rw [behind_append, ← List.append_assoc, hbehind]
          simp [behind, Side.pick]

/-- The leftmost node is the first one. -/
theorem plug_leftmost {cs : Color} {y : α} {child : ColorTree α} {above : List (Frame α)}
    (h : leftmost t path = some (cs, y, child, above)) :
    plug (.node cs .nil y child) above = plug t path ∧ before above = before path := by
  induction t, path using leftmost.induct with
  | case1 path => cases h
  | case2 c x right path =>
    cases h
    exact ⟨rfl, rfl⟩
  | case3 c left x right path hne ih =>
    rw [leftmost] at h
    · obtain ⟨hplug, hbefore⟩ := ih h
      refine ⟨hplug, hbefore.trans ?_⟩
      simp [before, Side.pick]
    · exact hne

theorem leftmost_eq_none_iff : leftmost t path = none ↔ t = .nil := by
  induction t, path using leftmost.induct with
  | case1 path => simp [leftmost]
  | case2 c x right path => simp [leftmost]
  | case3 c left x right path hne ih =>
    rw [leftmost]
    · simpa [ih] using hne
    · exact hne

theorem leftmost_append {a b : List (Frame α)} : leftmost t (a ++ b) =
    (leftmost t a).map fun (c, y, child, above) => (c, y, child, above ++ b) := by
  induction t, a using leftmost.induct with
  | case1 a => rfl
  | case2 c x right a => rfl
  | case3 c left x right a hne ih =>
    rw [leftmost, leftmost]
    · exact ih
    · exact hne
    · exact hne

/-- The removal takes the node out, and nothing else. -/
theorem inorder_erase :
    (erase c left right path).inorder = before path ++ (left.inorder ++ right.inorder) ++
      behind path := by
  rw [erase.eq_def]
  split
  · rw [inorder_splice, inorder_plug]
    rfl
  · next _ hright =>
    rw [leftmost_eq_none_iff.1 hright, inorder_plug, inorder_paint]
    simp [inorder]
  · next cs s child above _ hright =>
    obtain ⟨hplug, hbefore⟩ := plug_leftmost hright
    have hright' : right.inorder = s :: (child.inorder ++ behind above) := by
      have heq := congrArg inorder hplug
      rw [inorder_plug, hbefore] at heq
      simpa [plug, before, inorder] using heq.symm
    rw [inorder_splice, plug_append, plug, inorder_plug, Frame.fill, inorder_build, inorder_plug,
      hbefore, hright']
    simp [before, Side.pick]

end Order

-- ---------------------------------------------------------------------------
-- Colors
-- ---------------------------------------------------------------------------

/-- No red node has a red child, and each way down from the root passes the same number of
    black nodes. The color is that of the root. -/
inductive Balanced : ColorTree α → Color → Nat → Prop where
  | nil : Balanced .nil .black 0
  | red {left right : ColorTree α} {x : α} {n : Nat} :
    Balanced left .black n → Balanced right .black n → Balanced (.node .red left x right) .red n
  | black {left right : ColorTree α} {x : α} {cl cr : Color} {n : Nat} :
    Balanced left cl n → Balanced right cr n →
    Balanced (.node .black left x right) .black (n + 1)

/-- The place at the end of this path takes a balanced tree of this height, a black one
    where the color is black. The root of the whole is black. -/
inductive Fits : List (Frame α) → Color → Nat → Prop where
  | root {n : Nat} : Fits [] .black n
  | red {s : Side} {x : α} {far : ColorTree α} {path : List (Frame α)} {n : Nat} :
    Balanced far .black n → Fits path .red n → Fits (⟨s, .red, x, far⟩ :: path) .black n
  | black {s : Side} {x : α} {far : ColorTree α} {path : List (Frame α)} {c cf : Color} {n : Nat} :
    Balanced far cf n → Fits path .black (n + 1) → Fits (⟨s, .black, x, far⟩ :: path) c n

/-- A red-black tree. -/
def IsRedBlack (t : ColorTree α) : Prop := ∃ n, Balanced t .black n

section Colors

variable {s : Side} {c : Color} {n : Nat} {t near far left right : ColorTree α} {x : α}
  {f g : Frame α} {path : List (Frame α)}

theorem Balanced.color_eq (h : Balanced t c n) : t.color = c := by cases h <;> rfl

theorem Balanced.paint_black (h : Balanced t .black n) : t.paint .black = t := by
  cases h <;> rfl

/-- One of two trees of the same height. -/
theorem Balanced.pick {cl cr : Color} (hleft : Balanced left cl n) (hright : Balanced right cr n) :
    Balanced (s.pick left right) (s.pick cl cr) n := by
  cases s
  · exact hleft
  · exact hright

theorem Balanced.pick_black (hleft : Balanced left .black n) (hright : Balanced right .black n) :
    Balanced (s.pick left right) .black n := by
  cases s
  · exact hleft
  · exact hright

theorem Balanced.build_red (hnear : Balanced near .black n) (hfar : Balanced far .black n) :
    Balanced (build s .red near x far) .red n := by
  cases s
  · exact .red hnear hfar
  · exact .red hfar hnear

theorem Balanced.build_black {cn cf : Color} (hnear : Balanced near cn n)
    (hfar : Balanced far cf n) : Balanced (build s .black near x far) .black (n + 1) := by
  cases s
  · exact .black hnear hfar
  · exact .black hfar hnear

/-- A balanced tree with a red root is no longer red after a paint, and one higher. -/
theorem Balanced.paint_red (h : Balanced t .red n) : Balanced (t.paint .black) .black (n + 1) := by
  cases h with
  | red hleft hright => exact .black hleft hright

theorem Balanced.paint_isRedBlack (h : Balanced t c n) : IsRedBlack (t.paint .black) := by
  cases c with
  | red => exact ⟨n + 1, h.paint_red⟩
  | black => exact ⟨n, h.paint_black.symm ▸ h⟩

/-- What fills a place as it should makes a red-black tree. -/
theorem Fits.plug (h : Fits path c n) (ht : Balanced t c n) : IsRedBlack (plug t path) := by
  induction h generalizing t with
  | root => exact ⟨_, ht⟩
  | red hfar _ ih => exact ih (ht.build_red hfar)
  | black hfar _ ih => exact ih (ht.build_black hfar)

/-- A black tree may lie everywhere. -/
theorem Fits.of_red (h : Fits path .red n) : Fits path .black n := by
  cases h with
  | black hfar hpath => exact .black hfar hpath

/-- Every place of a balanced tree takes what is there. -/
theorem Balanced.exists_fits (h : Balanced (plug t path) .black n) :
    ∃ c m, Balanced t c m ∧ Fits path c m := by
  induction path generalizing t with
  | nil => exact ⟨.black, n, h, .root⟩
  | cons f path ih =>
    obtain ⟨c, m, hf, hpath⟩ := ih h
    obtain ⟨s, cf, y, far⟩ := f
    cases s <;> cases hf with
    | red hleft hright =>
      first
        | exact ⟨.black, m, hleft, .red hright hpath⟩
        | exact ⟨.black, m, hright, .red hleft hpath⟩
    | black hleft hright =>
      first
        | exact ⟨_, _, hleft, .black hright hpath⟩
        | exact ⟨_, _, hright, .black hleft hpath⟩

/-- A red parent has a black parent, which takes a tree of its height. -/
theorem Fits.red_parent (h : Fits (f :: path) .black n) (hf : f.color = .red) :
    Balanced f.far .black n ∧ ∃ g rest cg, path = g :: rest ∧ g.color = .black ∧
      Balanced g.far cg n ∧ Fits rest .black (n + 1) := by
  cases h with
  | red hfar hpath =>
    cases hpath with
    | black hg hrest => exact ⟨hfar, _, _, _, rfl, rfl, hg, hrest⟩
  | black => cases hf

theorem Balanced.rotateRed (ht : Balanced t .red n) (hf : Balanced f.far .black n)
    (hg : Balanced g.far .black n) (hblack : g.color = .black) :
    Balanced (rotateRed t f g) .black (n + 1) := by
  rw [RedBlack.rotateRed.eq_def, hblack]
  split
  · exact ht.build_black (hf.paint_black.symm ▸ hf.build_red hg)
  · cases ht with
    | red hleft hright =>
      dsimp only
      rw [(hleft.pick_black hright).paint_black, (hright.pick_black hleft).paint_black]
      exact (hf.build_red (hleft.pick_black hright)).build_black
        ((hright.pick_black hleft).build_red hg)

/-- The repair of an insertion makes a red-black tree where a red node came into a place for
    a black tree. -/
theorem Fits.insertColor (h : Fits path .black n) (ht : Balanced t .red n) :
    IsRedBlack (insertColor t path) := by
  induction t, path using RedBlack.insertColor.induct generalizing n with
  | case1 t => exact ht.paint_isRedBlack
  | case2 t f =>
    cases h with
    | red _ hpath => cases hpath
    | black hfar hpath =>
      rw [RedBlack.insertColor]
      exact hpath.plug (ht.build_black hfar)
  | case3 t f g path hf =>
    rw [RedBlack.insertColor, hf]
    cases h with
    | red => cases hf
    | black hfar hpath => exact hpath.plug (ht.build_black hfar)
  | case4 t f g path hg hf ih =>
    rw [RedBlack.insertColor, hf, hg]
    obtain ⟨hfar, _, _, _, heq, _, huncle, hrest⟩ := h.red_parent hf
    cases heq
    obtain rfl := huncle.color_eq.symm.trans hg
    exact ih hrest ((ht.build_black hfar).build_red huncle.paint_red)
  | case5 t f g path hg hf =>
    rw [RedBlack.insertColor, hf, hg]
    obtain ⟨hfar, _, _, _, heq, hblack, huncle, hrest⟩ := h.red_parent hf
    cases heq
    obtain rfl := huncle.color_eq.symm.trans hg
    exact hrest.plug (ht.rotateRed hfar huncle hblack)

/-- A black sibling at a parent in front of a subtree that lacks a black node: either the
    parent lacks it now, or the tree is repaired. -/
theorem Fits.lend (h : Fits (f :: path) .black (n + 1)) (ht : Balanced t .black n)
    (hsibling : f.far.color = .black) :
    (∃ u, lend t f = (u, true) ∧ f.color = .black ∧ Balanced u .black (n + 1) ∧
        Fits path .black (n + 2)) ∨
      ∃ u, lend t f = (u, false) ∧ IsRedBlack (RedBlack.plug u path) := by
  obtain ⟨side, cp, p, far⟩ := f
  have hfar : Balanced far .black (n + 1) := by
    cases h with
    | red hfar _ => exact hfar
    | black hfar _ => exact hfar.color_eq.symm.trans hsibling ▸ hfar
  -- What the place of the parent takes, in the color of the parent.
  have hplace : ∀ u, (cp = .red → Balanced u .red (n + 1)) →
      (cp = .black → Balanced u .black (n + 2)) → IsRedBlack (RedBlack.plug u path) := by
    intro u hred hblack
    cases h with
    | red _ hpath => exact hpath.plug (hred rfl)
    | black _ hpath => exact hpath.plug (hblack rfl)
  have hbuild : ∀ {a b : ColorTree α} {x : α}, Balanced a .black (n + 1) →
      Balanced b .black (n + 1) → IsRedBlack (RedBlack.plug (build side cp a x b) path) := by
    intro a b x ha hb
    refine hplace _ (fun hred => ?_) fun hblack => ?_
    · rw [hred]
      exact ha.build_red hb
    · rw [hblack]
      exact ha.build_black hb
  cases hfar with
  | @black l r s cl cr _ hl hr =>
    obtain ⟨ci, hinner⟩ : ∃ c, Balanced (side.pick l r) c n := ⟨_, hl.pick hr⟩
    obtain ⟨co, houter⟩ : ∃ c, Balanced (side.pick r l) c n := ⟨_, hr.pick hl⟩
    rw [RedBlack.lend.eq_def]
    dsimp only
    cases co with
    | red =>
      rw [houter.color_eq]
      exact .inr ⟨_, rfl, hbuild (ht.build_black hinner) houter.paint_red⟩
    | black =>
      rw [houter.color_eq]
      dsimp only
      -- The flip of colors, where both children of the sibling are black.
      have hflip : Balanced (side.pick l r) .black n →
          (∃ u, (build side .black t p ((node .black l s r).paint .red), decide (cp = .black)) =
              (u, true) ∧ cp = .black ∧ Balanced u .black (n + 1) ∧ Fits path .black (n + 2)) ∨
            ∃ u, (build side .black t p ((node .black l s r).paint .red), decide (cp = .black)) =
              (u, false) ∧ IsRedBlack (RedBlack.plug u path) := by
        intro hinner
        have hred : Balanced ((node .black l s r).paint .red) .red n := by
          cases side
          · exact .red hinner houter
          · exact .red houter hinner
        have hu := ht.build_black (s := side) (x := p) hred
        cases h with
        | red _ hpath => exact .inr ⟨_, rfl, hpath.of_red.plug hu⟩
        | black _ hpath => exact .inl ⟨_, rfl, rfl, hu, hpath⟩
      generalize side.pick l r = inner at hinner hflip
      split
      · next il i ir =>
        cases hinner with
        | red hil hir =>
          rw [(hir.pick_black hil).paint_black]
          exact .inr ⟨_, rfl, hbuild (ht.build_black (hil.pick_black hir))
            ((hir.pick_black hil).build_black houter)⟩
      · next hnot =>
        cases hinner with
        | nil => exact hflip .nil
        | red => exact absurd rfl (hnot _ _ _)
        | black hil hir => exact hflip (.black hil hir)

/-- The repair of a removal makes a red-black tree where a black subtree is one too low. -/
theorem Fits.eraseColor (h : Fits path .black (n + 1)) (ht : Balanced t .black n) :
    IsRedBlack (eraseColor t path) := by
  induction path generalizing t n with
  | nil => exact ⟨n, ht⟩
  | cons f path ih =>
    rw [RedBlack.eraseColor]
    split
    · next l s r hfar =>
      obtain ⟨side, cp, p, far⟩ := f
      cases hfar
      cases h with
      | red hfar => cases hfar
      | black hfar hpath =>
        cases hfar with
        | red hl hr =>
          have hinner : Balanced (side.pick l r) .black (n + 1) := hl.pick_black hr
          have houter : Balanced (side.pick r l) .black (n + 1) := hr.pick_black hl
          have hplace : Fits (⟨side, .red, p, (side.pick l r).paint .black⟩ ::
              ⟨side, .black, s, side.pick r l⟩ :: path) .black (n + 1) :=
            .red (hinner.paint_black.symm ▸ hinner) (.black houter hpath)
          have hcolor : ((side.pick l r).paint .black).color = .black := by
            rw [hinner.paint_black, hinner.color_eq]
          rcases hplace.lend ht hcolor with ⟨_, _, hred, _⟩ | ⟨u, hu, hresult⟩
          · cases hred
          · rw [hu]
            exact hresult
    · next hnot =>
      have hcolor : f.far.color = .black := by
        cases hfar : f.far with
        | nil => rfl
        | node c l s r =>
          cases c with
          | red => exact absurd hfar (hnot _ _ _)
          | black => rfl
      rcases h.lend ht hcolor with ⟨u, hu, _, hlow, hpath⟩ | ⟨u, hu, hresult⟩
      · rw [hu]
        exact ih hpath hlow
      · rw [hu]
        exact hresult

/-- A node of color `c` leaves the place of height `n`, over a child of height `m`. Such a child
    is red below a black node, or a leaf. -/
theorem Fits.splice {c' : Color} {child : ColorTree α} {m : Nat} (h : Fits path c n)
    (hbelow : (c = .red ∧ n = m) ∨ (c = .black ∧ n = m + 1))
    (hchild : (child = .nil ∧ m = 0) ∨ (Balanced child .red m ∧ c = .black ∧ c' = .black)) :
    IsRedBlack (splice c c' child path) := by
  rw [RedBlack.splice.eq_def]
  rcases hchild with ⟨rfl, rfl⟩ | ⟨hred, rfl, rfl⟩
  · rcases hbelow with ⟨rfl, rfl⟩ | ⟨rfl, rfl⟩
    · exact h.of_red.plug .nil
    · exact h.eraseColor .nil
  · rcases hbelow with ⟨hc, _⟩ | ⟨_, rfl⟩
    · cases hc
    · have hblack := hred.paint_red
      cases hred
      exact h.plug hblack

theorem Balanced.leftmost {m : Nat} {cs : Color} {y : α} {child : ColorTree α}
    {above : List (Frame α)} (h : Balanced t c m) (hpath : Fits path c m)
    (heq : leftmost t path = some (cs, y, child, above)) :
    ∃ n, Fits above cs n ∧ Balanced (.node cs .nil y child) cs n := by
  induction t, path using RedBlack.leftmost.induct generalizing c m with
  | case1 path => cases heq
  | case2 c' x right path =>
    cases heq
    have hc := h.color_eq
    cases hc
    exact ⟨m, hpath, h⟩
  | case3 c' left x right path hne ih =>
    rw [RedBlack.leftmost] at heq
    · cases h with
      | red hleft hright => exact ih hleft (.red hright hpath) heq
      | black hleft hright => exact ih hleft (.black hright hpath) heq
    · exact hne

/-- With no left child, the other one is red below a black node, or there is none. -/
theorem Balanced.only_child (h : Balanced (.node c .nil x right) c n) :
    ∃ m, ((c = .red ∧ n = m) ∨ (c = .black ∧ n = m + 1)) ∧
      ((right = .nil ∧ m = 0) ∨ (Balanced right .red m ∧ c = .black)) := by
  cases h with
  | red hleft hright =>
    cases hleft
    cases hright
    exact ⟨0, .inl ⟨rfl, rfl⟩, .inl ⟨rfl, rfl⟩⟩
  | @black _ _ _ _ cr _ hleft hright =>
    cases hleft
    refine ⟨0, .inr ⟨rfl, rfl⟩, ?_⟩
    cases cr with
    | red => exact .inr ⟨hright, rfl⟩
    | black =>
      cases hright
      exact .inl ⟨rfl, rfl⟩

/-- A sibling is there where a black node is missing. -/
theorem Fits.far_ne_nil (h : Fits (f :: path) c (n + 1)) : f.far ≠ .nil := by
  rintro hnil
  cases h with
  | red hfar =>
    cases hnil
    cases hfar
  | black hfar =>
    cases hnil
    cases hfar

/-- The place of a successor that takes the place of a node, and the child it leaves there. -/
theorem Fits.successor {l r child : ColorTree α} {cs : Color} {y : α} {above : List (Frame α)}
    (h : Fits path c n) (ht : Balanced (.node c l x r) c n)
    (hfirst : leftmost r [] = some (cs, y, child, above)) :
    ∃ k m, Fits (above ++ ⟨.right, c, y, l⟩ :: path) cs k ∧
      ((cs = .red ∧ k = m) ∨ (cs = .black ∧ k = m + 1)) ∧
      ((child = .nil ∧ m = 0) ∨ (Balanced child .red m ∧ cs = .black)) := by
  obtain ⟨cr, j, hr, hplace⟩ : ∃ cr j, Balanced r cr j ∧
      Fits (⟨.right, c, y, l⟩ :: path) cr j := by
    cases ht with
    | red hl hr => exact ⟨_, _, hr, .red hl h⟩
    | black hl hr => exact ⟨_, _, hr, .black hl h⟩
  have hfirst' : leftmost r ([] ++ ⟨.right, c, y, l⟩ :: path) =
      some (cs, y, child, above ++ ⟨.right, c, y, l⟩ :: path) := by
    rw [leftmost_append, hfirst]
    rfl
  obtain ⟨k, hfits, hnode⟩ := hr.leftmost hplace hfirst'
  obtain ⟨m, hbelow, hchild⟩ := hnode.only_child
  exact ⟨k, m, hfits, hbelow, hchild⟩

/-- The removal of a node makes a red-black tree. -/
theorem Fits.erase {l r : ColorTree α} (h : Fits path c n) (ht : Balanced (.node c l x r) c n) :
    IsRedBlack (erase c l r path) := by
  rw [RedBlack.erase.eq_def]
  split
  · obtain ⟨m, hbelow, hchild⟩ := ht.only_child
    exact h.splice hbelow (hchild.imp_right fun ⟨hred, hc⟩ => ⟨hred, hc, hc⟩)
  · next hne hright =>
    -- The mirror of `only_child`: a left child alone is red below a black node.
    rw [leftmost_eq_none_iff.1 hright] at ht
    cases ht with
    | red hleft hnil =>
      cases hnil
      cases hleft
      exact absurd rfl hne
    | black hleft hnil =>
      cases hnil
      cases hleft with
      | nil => exact absurd rfl hne
      | red hl hr => exact h.plug (.black hl hr)
  · next hright =>
    obtain ⟨k, m, hfits, hbelow, hchild⟩ := h.successor ht hright
    exact hfits.splice hbelow (hchild.imp_right fun ⟨hred, hc⟩ => ⟨hred, hc, rfl⟩)

end Colors

-- ---------------------------------------------------------------------------
-- Height
-- ---------------------------------------------------------------------------

/-- The number of nodes on the longest way down. -/
def ColorTree.height : ColorTree α → Nat
  | .nil => 0
  | .node _ left _ right => max left.height right.height + 1

section Height

variable {c : Color} {n : Nat} {t : ColorTree α}

theorem ColorTree.height_le_length : t.height ≤ t.inorder.length := by
  induction t with
  | nil => exact Nat.le_refl 0
  | node c left x right ihl ihr =>
    simp only [ColorTree.height, inorder, List.length_append, List.length_cons]
    omega

/-- Every second node on a way down is black. -/
theorem Balanced.height_le (h : Balanced t c n) :
    t.height ≤ 2 * n + (if c = .red then 1 else 0) := by
  induction h with
  | nil => simp [ColorTree.height]
  | red _ _ ihl ihr =>
    simp only [ColorTree.height, reduceCtorEq, if_false, if_true] at ihl ihr ⊢
    omega
  | @black _ _ _ cl cr _ _ _ ihl ihr =>
    simp only [ColorTree.height, reduceCtorEq, if_false] at ihl ihr ⊢
    split at ihl <;> split at ihr <;> omega

/-- And each way down has that many black ones. -/
theorem Balanced.two_pow_le (h : Balanced t c n) : 2 ^ n ≤ t.inorder.length + 1 := by
  induction h with
  | nil => simp
  | red _ _ ihl ihr =>
    simp only [inorder, List.length_append, List.length_cons]
    omega
  | black _ _ ihl ihr =>
    simp only [inorder, List.length_append, List.length_cons, Nat.pow_succ]
    omega

/-- A way down is at most twice the logarithm of the number of nodes. -/
theorem IsRedBlack.height_le (h : IsRedBlack t) :
    t.height ≤ 2 * Nat.log 2 (t.inorder.length + 1) := by
  obtain ⟨n, hn⟩ := h
  have hheight := hn.height_le
  have hlog : n ≤ Nat.log 2 (t.inorder.length + 1) :=
    Nat.le_log_of_pow_le (by decide) hn.two_pow_le
  simp only [reduceCtorEq, if_false] at hheight
  omega

end Height

end RedBlack
