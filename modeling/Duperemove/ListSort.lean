-- SUMMARY: list_sort on the memory of its nodes: it leaves the ring of the entries in the order of a stable sort.
import Duperemove.Lib.MergeParts
import Duperemove.ListHead

/-!
# Sorting a list in memory

`list_sort` takes a list apart into single nodes and merges them bottom-up. In between, its
parts are chains: they end in a null pointer, and the pointers backward are not kept. The last
merge makes a ring of them again.

`merge` has a head of its own on the stack, which is one more node here. Nothing is known about
its address but that it is no node of the list.
-/

namespace Duperemove.ListMem

variable {ν : Type} [DecidableEq ν]

-- ---------------------------------------------------------------------------
-- list_sort.c
-- ---------------------------------------------------------------------------

section Source

variable (cmp : ν → ν → Int) (stack : ν)

/-- The loop of `merge`, and of `merge_and_restore_back_links` when it writes back links, with
    the write behind it: the memory and the tail. -/
def mergeLoop (backLinks : Bool) : Nat → ListMem ν → ν → Option ν → Option ν →
    Option (ListMem ν × ν)
  | 0, _, _, _, _ => none
  | fuel + 1, h, tail, a, b =>
    match a, b with
    | some a, some b =>
      -- If equal, take `a`.
      let next := if cmp a b ≤ 0 then a else b
      let h := h.setNext tail (some next)
      let h := if backLinks then h.setPrev next (some tail) else h
      if cmp a b ≤ 0 then mergeLoop backLinks fuel h a (h.node a).next (some b)
      else mergeLoop backLinks fuel h b (some a) (h.node b).next
    | a, b => some (h.setNext tail (a.or b), tail)

def merge (fuel : Nat) (h : ListMem ν) (a b : Option ν) : Option (ListMem ν × Option ν) := do
  let (h, _) ← h.mergeLoop cmp false fuel stack a b
  return (h, (h.node stack).next)

/-- The `do` loop of `merge_and_restore_back_links`: the memory and the last node. Its calls of
    `cmp` on one node are left out. -/
def restoreBack : Nat → ListMem ν → ν → Option (ListMem ν × ν)
  | 0, _, _ => none
  | fuel + 1, h, tail => do
    let next ← (h.node tail).next
    let h := h.setPrev next (some tail)
    if (h.node next).next = none then return (h, next) else restoreBack fuel h next

def mergeAndRestoreBackLinks (fuel : Nat) (h : ListMem ν) (head : ν) (a b : Option ν) :
    Option (ListMem ν) := do
  let (h, tail) ← h.mergeLoop cmp true fuel head a b
  let (h, tail) ← h.restoreBack fuel tail
  return (h.setNext tail (some head)).setPrev head (some tail)

def maxListLengthBits : Nat := 20

/-- The variables of `list_sort`: the memory, the sorted partial lists and the highest of them. -/
structure SortVars (ν : Type) where
  mem : ListMem ν
  part : List (Option ν)
  maxLev : Nat

/-- The `for` loop that carries `cur` through the parts: the memory, the parts, `cur` and `lev`.
    `none` is an index behind the last slot. -/
def carryPart (fuel : Nat) : List (Option ν) → ListMem ν → Option ν →
    Option (ListMem ν × List (Option ν) × Option ν × Nat)
  | [], _, _ => none
  | none :: part, h, cur => some (h, none :: part, cur, 0)
  | some p :: part, h, cur => do
    let (h, cur) ← h.merge cmp stack fuel (some p) cur
    let (h, part, cur, lev) ← carryPart fuel part h cur
    return (h, none :: part, cur, lev + 1)

/-- The rest of a round. The last slot is a sentinel. -/
def addPart (fuel : Nat) (s : SortVars ν) (cur : Option ν) : Option (SortVars ν) := do
  let (h, part, cur, lev) ← carryPart cmp stack fuel s.part s.mem cur
  if lev > s.maxLev then
    let lev := if lev ≥ part.length - 1 then lev - 1 else lev
    return ⟨h, part.set lev cur, lev⟩
  else return ⟨h, part.set lev cur, s.maxLev⟩

/-- The `while` loop of `list_sort`. -/
def splitLoop (fuel : Nat) : Nat → SortVars ν → Option ν → Option (SortVars ν)
  | 0, _, _ => none
  | _ + 1, s, none => some s
  | rounds + 1, s, some cur => do
    let list := (s.mem.node cur).next
    let s ← addPart cmp stack fuel { s with mem := s.mem.setNext cur none } (some cur)
    splitLoop fuel rounds s list

/-- The loop over the parts below the highest one. -/
def gatherParts (fuel : Nat) : List (Option ν) → ListMem ν → Option ν →
    Option (ListMem ν × Option ν)
  | [], h, list => some (h, list)
  | none :: part, h, list => gatherParts fuel part h list
  | some p :: part, h, list => do
    let (h, list) ← h.merge cmp stack fuel (some p) list
    gatherParts fuel part h list

def listSort (fuel : Nat) (h : ListMem ν) (head : ν) : Option (ListMem ν) :=
  if h.listEmpty head then some h
  else do
    let last ← (h.node head).prev
    let h := h.setNext last none
    let s ← splitLoop cmp stack fuel fuel ⟨h, List.replicate (maxListLengthBits + 1) none, 0⟩
      (h.node head).next
    let (h, list) ← gatherParts cmp stack fuel (s.part.take s.maxLev) s.mem none
    h.mergeAndRestoreBackLinks cmp fuel head (s.part.getD s.maxLev none) list

end Source

-- ---------------------------------------------------------------------------
-- Chains
-- ---------------------------------------------------------------------------

/-- A null-terminated list. -/
def Chain (h : ListMem ν) : Option ν → List ν → Prop
  | p, [] => p = none
  | p, x :: xs => p = some x ∧ Chain h (h.node x).next xs

/-- The nodes point back, the first one to `tail`. -/
def BackLinked (h : ListMem ν) (tail : ν) : List ν → Prop
  | [] => True
  | x :: xs => (h.node x).prev = some tail ∧ BackLinked h x xs

/-- The node a tail stands at behind some nodes. -/
def trail (tail : ν) : List ν → ν
  | [] => tail
  | x :: xs => trail x xs

variable {h h' h₁ : ListMem ν} (cmp : ν → ν → Int) {p a b : Option ν} {tail x : ν}
  {xs ys zs front rest : List ν}

omit [DecidableEq ν] in
theorem Chain.congr (hc : h.Chain p xs) (hnext : ∀ x ∈ xs, (h'.node x).next = (h.node x).next) :
    h'.Chain p xs := by
  induction xs generalizing p with
  | nil => exact hc
  | cons x xs ih =>
    refine ⟨hc.1, ?_⟩
    rw [hnext x List.mem_cons_self]
    exact ih hc.2 fun y hy => hnext y (List.mem_cons_of_mem x hy)

omit [DecidableEq ν] in
theorem Chain.eq_nil (hc : h.Chain none xs) : xs = [] := by
  cases xs with
  | nil => rfl
  | cons x xs => cases hc.1

-- ---------------------------------------------------------------------------
-- Merging
-- ---------------------------------------------------------------------------

/-- What the loop of a merge leaves: the chain behind `tail`, with back links up to its tail. -/
structure Merged (h h' : ListMem ν) (backLinks : Bool) (tail : ν) (front rest zone : List ν) :
    Prop where
  chain : h'.Chain (h'.node tail).next (front ++ rest)
  back : backLinks = true → h'.BackLinked tail front
  prev : (h'.node tail).prev = (h.node tail).prev
  keep : ∀ z, z ∉ tail :: zone → h'.node z = h.node z

/-- The memory after one round. -/
def linkNext (backLinks : Bool) (h : ListMem ν) (tail x : ν) : ListMem ν :=
  if backLinks then (h.setNext tail (some x)).setPrev x (some tail) else h.setNext tail (some x)

section Round

variable {backLinks : Bool} {y : ν}

theorem next_linkNext_self : ((linkNext backLinks h tail x).node tail).next = some x := by
  cases backLinks <;> simp [linkNext]

theorem next_linkNext_ne (hne : y ≠ tail) :
    ((linkNext backLinks h tail x).node y).next = (h.node y).next := by
  cases backLinks <;> simp [linkNext, hne]

theorem node_linkNext_ne (hne : y ≠ tail) (hne' : y ≠ x) :
    (linkNext backLinks h tail x).node y = h.node y := by
  cases backLinks with
  | false => exact node_setNext_ne hne
  | true =>
    rw [linkNext, if_pos rfl, node_setPrev_ne hne', node_setNext_ne hne]

theorem prev_linkNext_ne (hne : y ≠ x) :
    ((linkNext backLinks h tail x).node y).prev = (h.node y).prev := by
  cases backLinks <;> simp [linkNext, hne]

theorem prev_linkNext_self (hback : backLinks = true) :
    ((linkNext backLinks h tail x).node x).prev = some tail := by
  rw [linkNext, if_pos hback, prev_setPrev, if_pos rfl]

/-- One round in front of a merge. -/
theorem Merged.cons {zone zone' : List ν} (hm : Merged (linkNext backLinks h tail x) h' backLinks x
      front rest zone') (htail : tail ∉ x :: zone') (hsub : x :: zone' ⊆ zone) :
    Merged h h' backLinks tail (x :: front) rest zone := by
  have hne : tail ≠ x := List.ne_of_not_mem_cons htail
  refine ⟨⟨?_, hm.chain⟩, fun hback => ⟨?_, hm.back hback⟩, ?_, fun z hz => ?_⟩
  · rw [hm.keep tail htail, next_linkNext_self]
  · rw [hm.prev, prev_linkNext_self hback]
  · rw [hm.keep tail htail, prev_linkNext_ne hne]
  · rw [List.mem_cons, not_or] at hz
    have hzx : z ≠ x := fun heq => hz.2 (heq ▸ hsub List.mem_cons_self)
    rw [hm.keep z fun hin => hz.2 (hsub hin), node_linkNext_ne hz.1 hzx]

end Round

def leOf (cmp : ν → ν → Int) (a b : ν) : Bool := decide (cmp a b ≤ 0)

theorem mergeLoop_spec (backLinks : Bool) {fuel : Nat} (ha : h.Chain a xs) (hb : h.Chain b ys)
    (hnodup : (tail :: (xs ++ ys)).Nodup) (hfuel : xs.length + ys.length < fuel) :
    ∃ h' front rest, mergeLoop cmp backLinks fuel h tail a b = some (h', trail tail front) ∧
      List.merge xs ys (leOf cmp) = front ++ rest ∧ (xs ++ ys ≠ [] → rest ≠ []) ∧
      Merged h h' backLinks tail front rest (xs ++ ys) := by
  induction fuel generalizing h tail a b xs ys with
  | zero => exact absurd hfuel (Nat.not_lt_zero _)
  | succ fuel ih =>
    have hstop : ∀ p zs, h.Chain p zs → tail ∉ zs →
        Merged h (h.setNext tail p) backLinks tail [] zs zs := fun p zs hc htail => by
      refine ⟨?_, fun _ => trivial, prev_setNext, fun z hz => ?_⟩
      · rw [next_setNext, if_pos rfl]
        refine hc.congr fun z hz => ?_
        have hne : z ≠ tail := fun heq => htail (heq ▸ hz)
        rw [next_setNext, if_neg hne]
      · exact node_setNext_ne (List.ne_of_not_mem_cons hz)
    have htail := (List.nodup_cons.1 hnodup).1
    cases xs with
    | nil =>
      obtain rfl : a = none := ha
      refine ⟨_, [], ys, ?_, by simp, id, hstop b ys hb htail⟩
      cases b <;> rfl
    | cons x xs =>
      obtain ⟨rfl, ha⟩ := ha
      cases ys with
      | nil =>
        obtain rfl : b = none := hb
        rw [List.append_nil] at htail ⊢
        refine ⟨_, [], x :: xs, rfl, by simp, id, ?_⟩
        exact hstop (some x) (x :: xs) ⟨rfl, ha⟩ htail
      | cons y ys =>
        obtain ⟨rfl, hb⟩ := hb
        have hrest := (List.nodup_cons.1 hnodup).2
        have hnext : ∀ n ∈ (x :: xs) ++ y :: ys, ∀ m,
            ((linkNext backLinks h tail m).node n).next = (h.node n).next := fun n hn m =>
          next_linkNext_ne fun heq => htail (heq ▸ hn)
        simp only [List.length_cons] at hfuel
        by_cases hle : cmp x y ≤ 0
        · have hchain : (linkNext backLinks h tail x).Chain
              ((linkNext backLinks h tail x).node x).next xs := by
            rw [hnext x List.mem_cons_self]
            exact ha.congr fun n hn => hnext n (by simp [hn]) x
          have hchain' : (linkNext backLinks h tail x).Chain (some y) (y :: ys) := by
            refine Chain.congr (h := h) ⟨rfl, hb⟩ fun n hn => hnext n ?_ x
            exact List.mem_append_right _ hn
          obtain ⟨h', front, rest, hrun, hmerge, hne, hm⟩ := ih hchain hchain' hrest (by
            simp only [List.length_cons]
            omega)
          refine ⟨h', x :: front, rest, ?_, ?_, fun _ => hne (by simp), hm.cons htail ?_⟩
          · simp only [mergeLoop, hle, if_true]
            exact hrun
          · rw [List.cons_merge_cons_pos _ _ _ (by simpa [leOf] using hle), hmerge,
              List.cons_append]
          · exact List.Subset.refl _
        · have hchain : (linkNext backLinks h tail y).Chain
              ((linkNext backLinks h tail y).node y).next ys := by
            rw [hnext y (by simp)]
            exact hb.congr fun n hn => hnext n (by simp [hn]) y
          have hchain' : (linkNext backLinks h tail y).Chain (some x) (x :: xs) := by
            refine Chain.congr (h := h) ⟨rfl, ha⟩ fun n hn => hnext n ?_ y
            exact List.mem_append_left _ hn
          have hperm : ((x :: xs) ++ y :: ys).Perm (y :: ((x :: xs) ++ ys)) := List.perm_middle
          obtain ⟨h', front, rest, hrun, hmerge, hne, hm⟩ := ih hchain' hchain
            (hperm.nodup_iff.1 hrest) (by
              simp only [List.length_cons]
              omega)
          refine ⟨h', y :: front, rest, ?_, ?_, fun _ => hne (by simp),
            hm.cons ?_ hperm.symm.subset⟩
          · simp only [mergeLoop, hle, if_false]
            exact hrun
          · rw [List.cons_merge_cons_neg _ _ _ (by simpa [leOf] using hle), hmerge,
              List.cons_append]
          · exact fun hin => htail (hperm.mem_iff.2 hin)

theorem merge_spec {stack : ν} (fuel : Nat) (ha : h.Chain a xs) (hb : h.Chain b ys)
    (hnodup : (stack :: (xs ++ ys)).Nodup) (hfuel : xs.length + ys.length < fuel) :
    ∃ h' p, h.merge cmp stack fuel a b = some (h', p) ∧
      h'.Chain p (List.merge xs ys (leOf cmp)) ∧
      ∀ z, z ∉ stack :: (xs ++ ys) → h'.node z = h.node z := by
  obtain ⟨h', front, rest, hrun, hmerge, -, hm⟩ :=
    mergeLoop_spec cmp false ha hb hnodup hfuel
  refine ⟨h', (h'.node stack).next, ?_, hmerge ▸ hm.chain, hm.keep⟩
  rw [merge, hrun]
  rfl

omit [DecidableEq ν] in
theorem trail_mem : trail x xs ∈ x :: xs := by
  induction xs generalizing x with
  | nil => exact List.mem_cons_self
  | cons y ys ih => exact List.mem_cons_of_mem x ih

omit [DecidableEq ν] in
theorem trail_append : trail x (front ++ rest) = trail (trail x front) rest := by
  induction front generalizing x with
  | nil => rfl
  | cons y front ih => exact ih

omit [DecidableEq ν] in
theorem backLinked_append : h.BackLinked x (front ++ rest) ↔
    h.BackLinked x front ∧ h.BackLinked (trail x front) rest := by
  induction front generalizing x with
  | nil => exact (and_iff_right trivial).symm
  | cons y front ih => exact (and_congr_right fun _ => ih).trans and_assoc.symm

omit [DecidableEq ν] in
theorem BackLinked.congr (hb : h.BackLinked x xs)
    (hprev : ∀ y ∈ xs, (h'.node y).prev = (h.node y).prev) : h'.BackLinked x xs := by
  induction xs generalizing x with
  | nil => trivial
  | cons y ys ih =>
    exact ⟨(hprev y List.mem_cons_self).trans hb.1,
      ih hb.2 fun z hz => hprev z (List.mem_cons_of_mem y hz)⟩

omit [DecidableEq ν] in
theorem Chain.suffix (hc : h.Chain (h.node x).next (front ++ rest)) :
    h.Chain (h.node (trail x front)).next rest := by
  induction front generalizing x with
  | nil => exact hc
  | cons y front ih => exact ih hc.2

theorem restoreBack_spec {fuel : Nat} (hc : h.Chain (h.node tail).next xs) (hne : xs ≠ [])
    (hnodup : xs.Nodup) (hfuel : xs.length ≤ fuel) :
    ∃ h', h.restoreBack fuel tail = some (h', trail tail xs) ∧ h'.BackLinked tail xs ∧
      (∀ z, (h'.node z).next = (h.node z).next) ∧
      ∀ z, z ∉ xs → (h'.node z).prev = (h.node z).prev := by
  induction xs generalizing h tail fuel with
  | nil => exact absurd rfl hne
  | cons x xs ih =>
    obtain ⟨hnext, hrest⟩ := hc
    obtain ⟨fuel, rfl⟩ : ∃ n, fuel = n + 1 := ⟨fuel - 1, by simp at hfuel; omega⟩
    have hround : h.restoreBack (fuel + 1) tail =
        if (h.node x).next = none then some (h.setPrev x (some tail), x)
        else (h.setPrev x (some tail)).restoreBack fuel x := by
      simp only [restoreBack, hnext, Option.bind_eq_bind, Option.bind_some, next_setPrev,
        Option.pure_def]
    cases xs with
    | nil =>
      have hend : (h.node x).next = none := hrest
      refine ⟨h.setPrev x (some tail), ?_, ⟨?_, trivial⟩, fun z => next_setPrev, fun z hz => ?_⟩
      · rw [hround, if_pos hend]
        rfl
      · rw [prev_setPrev, if_pos rfl]
      · rw [prev_setPrev, if_neg (List.ne_of_not_mem_cons hz)]
    | cons y ys =>
      have hgo : (h.node x).next ≠ none := by
        rw [hrest.1]
        exact Option.some_ne_none y
      have hchain : (h.setPrev x (some tail)).Chain ((h.setPrev x (some tail)).node x).next
          (y :: ys) := by
        rw [next_setPrev]
        exact hrest.congr fun z _ => next_setPrev
      obtain ⟨h', hrun, hback, hkeep, hprev⟩ := ih hchain (List.cons_ne_nil y ys)
        (List.nodup_cons.1 hnodup).2 (by simpa using hfuel)
      refine ⟨h', ?_, ⟨?_, hback⟩, fun z => (hkeep z).trans next_setPrev, fun z hz => ?_⟩
      · rw [hround, if_neg hgo]
        exact hrun
      · rw [hprev x (List.nodup_cons.1 hnodup).1, prev_setPrev, if_pos rfl]
      · rw [List.mem_cons, not_or] at hz
        rw [hprev z hz.2, prev_setPrev, if_neg hz.1]

/-- The two writes that close the ring. -/
theorem path_close {head : ν} (hc : h.Chain (h.node tail).next xs) (hb : h.BackLinked tail xs)
    (hnodup : (tail :: xs).Nodup) (hhead : head ∉ xs) :
    ((h.setNext (trail tail xs) (some head)).setPrev head (some (trail tail xs))).links.Path
      (tail :: xs ++ [head]) := by
  induction xs generalizing tail with
  | nil =>
    refine List.isChain_cons_cons.2 ⟨⟨?_, ?_⟩, List.isChain_singleton head⟩
    · simp [links, trail]
    · simp [links, trail]
  | cons x xs ih =>
    have hlast : tail ≠ trail x xs := fun heq =>
      (List.nodup_cons.1 hnodup).1 (heq ▸ trail_mem)
    have hxh : x ≠ head := fun heq => hhead (heq ▸ List.mem_cons_self)
    refine List.isChain_cons_cons.2 ⟨⟨?_, ?_⟩, ?_⟩
    · simp [links, trail, hlast, hc.1]
    · simp [links, trail, hxh, hb.1]
    · exact ih hc.2 hb.2 (List.nodup_cons.1 hnodup).2 fun hin =>
        hhead (List.mem_cons_of_mem x hin)

theorem mergeAndRestoreBackLinks_spec {head : ν} {fuel : Nat} (ha : h.Chain a xs)
    (hb : h.Chain b ys) (hne : xs ++ ys ≠ []) (hnodup : (head :: (xs ++ ys)).Nodup)
    (hfuel : xs.length + ys.length < fuel) :
    ∃ h', h.mergeAndRestoreBackLinks cmp fuel head a b = some h' ∧
      h'.Ring head (List.merge xs ys (leOf cmp)) ∧
      ∀ z, z ∉ head :: (xs ++ ys) → h'.node z = h.node z := by
  obtain ⟨h₁, front, rest, hrun, hmerge, hrest, hm⟩ :=
    mergeLoop_spec cmp true ha hb hnodup hfuel
  have hperm : (front ++ rest).Perm (xs ++ ys) := hmerge ▸ List.merge_perm_append (leOf cmp)
  have hnodup' : (head :: (front ++ rest)).Nodup := (hperm.cons head).nodup_iff.2 hnodup
  obtain ⟨hhead, hsplit⟩ := List.nodup_cons.1 hnodup'
  have hlength : rest.length ≤ fuel := by
    have hlength := hperm.length_eq
    simp only [List.length_append] at hlength
    omega
  obtain ⟨h₂, hrun', hback, hnext, hprev⟩ := restoreBack_spec hm.chain.suffix (hrest hne)
    (List.nodup_append'.1 hsplit).2.1 hlength
  have hback₂ : h₂.BackLinked head (front ++ rest) := by
    refine backLinked_append.2 ⟨(hm.back rfl).congr fun y hy => hprev y fun hin => ?_, hback⟩
    exact (List.nodup_append'.1 hsplit).2.2 hy hin
  have hchain₂ : h₂.Chain (h₂.node head).next (front ++ rest) := by
    rw [hnext]
    exact hm.chain.congr fun y _ => hnext y
  have hpath := path_close hchain₂ hback₂ hnodup' hhead
  have htail : trail head (front ++ rest) ∈ head :: (front ++ rest) := trail_mem
  have hzone : head :: (front ++ rest) ⊆ head :: (xs ++ ys) := (hperm.cons head).subset
  refine ⟨(h₂.setNext (trail head (front ++ rest)) (some head)).setPrev head
    (some (trail head (front ++ rest))), ?_, ?_, fun z hz => ?_⟩
  · simp only [mergeAndRestoreBackLinks, hrun, hrun', Option.bind_eq_bind, Option.bind_some,
      Option.pure_def, trail_append]
  · rw [hmerge]
    exact ⟨hpath, hnodup'⟩
  · have hzh : z ≠ head := List.ne_of_not_mem_cons hz
    have hzt : z ≠ trail head (front ++ rest) := fun heq => hz (heq ▸ hzone htail)
    have hzr : z ∉ rest := fun hin =>
      hz (hzone (List.mem_cons_of_mem head (List.mem_append_right front hin)))
    rw [node_setPrev_ne hzh, node_setNext_ne hzt, ← hm.keep z hz]
    have heq : h₂.node z = ⟨(h₁.node z).next, (h₁.node z).prev⟩ := by
      rw [← hnext z, ← hprev z hzr]
    exact heq

-- ---------------------------------------------------------------------------
-- The parts
-- ---------------------------------------------------------------------------

open MergeParts (Sorts)

section Parts

variable {stack : ν} {fuel : Nat} {part : List (Option ν)} {qs : List (List ν)} {cur : Option ν}
  {cs done now : List ν}

omit [DecidableEq ν] in
theorem chains_congr (hc : List.Forall₂ h.Chain part qs)
    (hkeep : ∀ z ∈ qs.flatten, h'.node z = h.node z) : List.Forall₂ h'.Chain part qs := by
  induction hc with
  | nil => exact .nil
  | cons hfirst _ ih =>
    refine .cons (hfirst.congr fun z hz => ?_) (ih fun z hz => hkeep z ?_)
    · rw [hkeep z (List.mem_append_left _ hz)]
    · exact List.mem_append_right _ hz

/-- A part is merged into a chain, and the other parts are left alone. -/
theorem merge_part {p : ν} {q : List ν} (hfirst : h.Chain (some p) q)
    (hrest : List.Forall₂ h.Chain part qs) (hcur : h.Chain cur cs)
    (hnodup : (stack :: ((q :: qs).flatten ++ cs)).Nodup)
    (hfuel : ((q :: qs).flatten ++ cs).length < fuel) :
    ∃ h₁ p₁, h.merge cmp stack fuel (some p) cur = some (h₁, p₁) ∧
      h₁.Chain p₁ (List.merge q cs (leOf cmp)) ∧ List.Forall₂ h₁.Chain part qs ∧
      (qs.flatten ++ List.merge q cs (leOf cmp)).Perm ((q :: qs).flatten ++ cs) ∧
      ∀ z, z ∉ stack :: ((q :: qs).flatten ++ cs) → h₁.node z = h.node z := by
  have hsub : (stack :: (q ++ cs)).Sublist (stack :: ((q :: qs).flatten ++ cs)) := by
    rw [List.flatten_cons, List.append_assoc]
    exact ((List.sublist_append_right qs.flatten cs).append_left q).cons_cons stack
  have hperm : (qs.flatten ++ List.merge q cs (leOf cmp)).Perm ((q :: qs).flatten ++ cs) := by
    rw [List.flatten_cons, List.append_assoc]
    refine ((List.merge_perm_append (leOf cmp)).append_left qs.flatten).trans ?_
    rw [← List.append_assoc, ← List.append_assoc]
    exact List.perm_append_comm.append_right cs
  simp only [List.flatten_cons, List.length_append] at hfuel
  obtain ⟨h₁, p₁, hrun, hchain, hkeep⟩ := merge_spec cmp fuel hfirst hcur
    (hnodup.sublist hsub) (by omega)
  refine ⟨h₁, p₁, hrun, hchain, ?_, hperm, fun z hz => hkeep z fun hin => hz (hsub.subset hin)⟩
  refine chains_congr hrest fun z hz => hkeep z fun hin => ?_
  obtain ⟨hstack, hall⟩ := List.nodup_cons.1 hnodup
  have hmem : z ∈ (q :: qs).flatten ++ cs := List.mem_append_left cs (List.mem_append_right q hz)
  have hapart := List.nodup_append'.1 hall
  rcases List.mem_cons.1 hin with rfl | hin
  · exact hstack hmem
  rcases List.mem_append.1 hin with hin | hin
  · exact (List.nodup_append'.1 hapart.1).2.2 hin hz
  · exact hapart.2.2 (List.mem_append_right q hz) hin

/-- What the loop that carries `cur` leaves: it stops at the empty slot `lev`, and the slots
    behind it are as they were. -/
structure Carried (h h' : ListMem ν) (cmp : ν → ν → Int) (stack : ν) (part : List (Option ν))
    (qs : List (List ν)) (cs done now : List ν) (part' : List (Option ν)) (cur' : Option ν)
    (lev : Nat) (tail : List (Option ν)) (qs' : List (List ν)) (cs' early late : List ν) :
    Prop where
  slots : part' = List.replicate lev none ++ none :: tail
  behind : part.drop (lev + 1) = tail
  length : part.length = lev + 1 + tail.length
  chains : List.Forall₂ h'.Chain tail qs'
  chain : h'.Chain cur' cs'
  ne : cs' ≠ []
  split : done = early ++ late
  holds : MergeParts.Holds (leOf cmp) qs' early
  sorts : Sorts (leOf cmp) (late ++ now) cs'
  perm : (qs'.flatten ++ cs').Perm (qs.flatten ++ cs)
  keep : ∀ z, z ∉ stack :: (qs.flatten ++ cs) → h'.node z = h.node z

theorem carryPart_spec (hparts : List.Forall₂ h.Chain part qs) (hcur : h.Chain cur cs)
    (hempty : none ∈ part) (hnodup : (stack :: (qs.flatten ++ cs)).Nodup)
    (hfuel : (qs.flatten ++ cs).length < fuel) (hholds : MergeParts.Holds (leOf cmp) qs done)
    (hsorts : Sorts (leOf cmp) now cs) (hne : cs ≠ []) :
    ∃ h' part' cur' lev tail qs' cs' early late,
      carryPart cmp stack fuel part h cur = some (h', part', cur', lev) ∧
      Carried h h' cmp stack part qs cs done now part' cur' lev tail qs' cs' early late := by
  induction part generalizing h cur cs done now qs with
  | nil => cases hempty
  | cons p part ih =>
    obtain ⟨q, qs, hfirst, hrest, rfl⟩ := List.forall₂_cons_left_iff.1 hparts
    obtain ⟨early, late, rfl, hpart, hbehind⟩ := hholds
    cases p with
    | none =>
      obtain rfl := hfirst.eq_nil
      refine ⟨h, none :: part, cur, 0, part, qs, cs, early, late, rfl, ?_⟩
      refine ⟨rfl, rfl, by simp; omega, hrest, hcur, hne, rfl, hbehind, ?_, .refl _,
        fun _ _ => rfl⟩
      rw [hpart.eq_nil, List.nil_append]
      exact hsorts
    | some p =>
      have hempty' : none ∈ part := by simpa using hempty
      obtain ⟨h₁, p₁, hrun, hchain, hrest₁, hperm, hkeep⟩ :=
        merge_part cmp hfirst hrest hcur hnodup hfuel
      have hnodup₁ := (hperm.cons stack).nodup_iff.2 hnodup
      have hne₁ : List.merge q cs (leOf cmp) ≠ [] := fun heq => by
        have hmerge : (List.merge q cs (leOf cmp)).Perm (q ++ cs) :=
          List.merge_perm_append (leOf cmp)
        have hlength := hmerge.length_eq
        rw [heq, List.length_append, List.length_nil] at hlength
        exact hne (List.length_eq_zero_iff.1 (by omega))
      obtain ⟨h', part', cur', lev, tail, qs', cs', early', late', hcarry, hc⟩ :=
        ih hrest₁ hchain hempty' hnodup₁ (hperm.length_eq ▸ hfuel) hbehind (hpart.merge hsorts)
          hne₁
      refine ⟨h', none :: part', cur', lev + 1, tail, qs', cs', early', late' ++ late, ?_, ?_⟩
      · simp only [carryPart, hrun, hcarry, Option.bind_eq_bind, Option.bind_some, Option.pure_def]
      · refine ⟨?_, hc.behind, ?_, hc.chains, hc.chain, hc.ne, ?_, hc.holds, ?_,
          hc.perm.trans hperm, fun z hz => ?_⟩
        · rw [hc.slots]
          rfl
        · rw [List.length_cons, hc.length]
          omega
        · rw [hc.split, List.append_assoc]
        · rw [List.append_assoc]
          exact hc.sorts
        · rw [hc.keep z fun hin => hz ((hperm.cons stack).mem_iff.1 hin)]
          exact hkeep z hz

/-- `cur` in the slot `lev`, with empty slots below it. -/
def slots (lev : Nat) (cur : Option ν) (tail : List (Option ν)) : List (Option ν) :=
  List.replicate lev none ++ cur :: tail

section Slots

variable {lev i : Nat} {tail : List (Option ν)}

omit [DecidableEq ν]

theorem length_slots : (slots lev cur tail).length = lev + 1 + tail.length := by
  simp only [slots, List.length_append, List.length_replicate, List.length_cons]
  omega

theorem getElem?_slots_self : (slots lev cur tail)[lev]? = some cur := by
  simp [slots]

theorem getElem?_slots_gt (hlt : lev < i) :
    (slots lev cur tail)[i]? = tail[i - (lev + 1)]? := by
  obtain ⟨k, rfl⟩ : ∃ k, i = lev + 1 + k := ⟨i - (lev + 1), by omega⟩
  have hlev : (slots lev cur tail) = (List.replicate lev none ++ [cur]) ++ tail := by simp [slots]
  rw [hlev, List.getElem?_append_right (by simp)]
  simp

theorem set_slots : (List.replicate lev none ++ none :: tail).set lev cur = slots lev cur tail := by
  simp [slots]

/-- `lev--` behind the last slot. -/
theorem set_slots_pred : (List.replicate (lev + 1) none ++ [none]).set lev cur =
    slots lev cur [none] := by
  rw [List.replicate_succ', List.append_assoc, List.singleton_append, set_slots]

theorem chains_slots (hc : List.Forall₂ h.Chain tail qs) (hcur : h.Chain cur cs) :
    List.Forall₂ h.Chain (slots lev cur tail) (List.replicate lev [] ++ cs :: qs) := by
  induction lev with
  | zero => exact .cons hcur hc
  | succ lev ih => exact .cons rfl ih

end Slots

/-- The parts between two rounds of `list_sort`, which hold the nodes `done`. -/
structure SortVars.Inv (s : SortVars ν) (qs : List (List ν)) (done : List ν) : Prop where
  chains : List.Forall₂ s.mem.Chain s.part qs
  holds : MergeParts.Holds (leOf cmp) qs done
  length : s.part.length = maxListLengthBits + 1
  maxLev : s.maxLev < maxListLengthBits
  above : ∀ i p, s.maxLev < i → s.part[i]? ≠ some (some p)
  top : s.maxLev = 0 ∨ ∃ p, s.part[s.maxLev]? = some (some p)

theorem addPart_spec {s : SortVars ν} (hs : s.Inv cmp qs done) (hcur : s.mem.Chain cur cs)
    (hnodup : (stack :: (qs.flatten ++ cs)).Nodup) (hfuel : (qs.flatten ++ cs).length < fuel)
    (hsorts : Sorts (leOf cmp) now cs) (hne : cs ≠ []) :
    ∃ s' qs', addPart cmp stack fuel s cur = some s' ∧ s'.Inv cmp qs' (done ++ now) ∧
      (∃ p, s'.part[s'.maxLev]? = some (some p)) ∧ qs'.flatten.Perm (qs.flatten ++ cs) ∧
      ∀ z, z ∉ stack :: (qs.flatten ++ cs) → s'.mem.node z = s.mem.node z := by
  have hlength := hs.length
  have hmax := hs.maxLev
  have hempty : none ∈ s.part := by
    have hlast : s.maxLev < maxListLengthBits := hmax
    have hin : maxListLengthBits < s.part.length := by omega
    have hget := List.getElem?_eq_getElem hin
    cases hp : s.part[maxListLengthBits] with
    | none => exact hp ▸ List.getElem_mem hin
    | some p =>
      rw [hp] at hget
      exact absurd hget (hs.above _ p hlast)
  obtain ⟨h', part', cur', lev, tail, qs', cs', early, late, hrun, hc⟩ :=
    carryPart_spec cmp hs.chains hcur hempty hnodup hfuel hs.holds hsorts hne
  obtain ⟨p, hp⟩ : ∃ p, cur' = some p := by
    have hchain := hc.chain
    cases hcs : cs' with
    | nil => exact absurd hcs hc.ne
    | cons x xs =>
      rw [hcs] at hchain
      exact ⟨x, hchain.1⟩
  have hdone : early ++ (late ++ now) = done ++ now := by
    rw [hc.split, List.append_assoc]
  have htail : ∀ i, lev < i → tail[i - (lev + 1)]? = s.part[i]? := fun i hi => by
    rw [← hc.behind, List.getElem?_drop]
    congr 1
    omega
  have hsize := hc.length
  have hpart : part'.length - 1 = maxListLengthBits := by
    rw [hc.slots]
    simp only [List.length_append, List.length_replicate, List.length_cons]
    omega
  have hflat : (List.replicate lev [] ++ cs' :: qs').flatten.Perm (qs.flatten ++ cs) := by
    refine List.Perm.trans ?_ hc.perm
    simp only [List.flatten_append, List.flatten_replicate_nil, List.nil_append, List.flatten_cons]
    exact List.perm_append_comm
  by_cases hlev : lev > s.maxLev
  · by_cases hfull : lev ≥ part'.length - 1
    · -- What is carried out of the last slot but the sentinel stays in it.
      have hnil : tail = [] := List.length_eq_zero_iff.1 (by omega)
      obtain ⟨low, rfl⟩ : ∃ low, lev = low + 1 := ⟨lev - 1, by omega⟩
      have hchains := hc.chains
      rw [hnil, List.forall₂_nil_left_iff] at hchains
      have hearly : early = [] := by
        have hholds := hc.holds
        rw [hchains] at hholds
        exact hholds
      have hsentinel : List.Forall₂ h'.Chain [none] [[]] := .cons rfl .nil
      have hholds : MergeParts.Holds (leOf cmp) [[]] early := by
        rw [hearly]
        exact MergeParts.holds_replicate 1
      refine ⟨⟨h', slots low cur' [none], low⟩, _, ?_, ⟨chains_slots hsentinel hc.chain,
        hdone ▸ hholds.slot hc.sorts low, ?_, ?_, fun i q hi => ?_, .inr ⟨p, ?_⟩⟩, ⟨p, ?_⟩,
        ?_, hc.keep⟩
      · simp only [addPart, hrun, Option.bind_eq_bind, Option.bind_some, if_pos hlev, if_pos hfull,
          Option.pure_def, Nat.add_sub_cancel]
        rw [hc.slots, hnil, set_slots_pred]
      · rw [length_slots, List.length_singleton]
        rw [hnil, List.length_nil] at hsize
        omega
      · show low < maxListLengthBits
        omega
      · show (slots low cur' [none])[i]? ≠ some (some q)
        rw [getElem?_slots_gt hi]
        cases hi' : i - (low + 1) with
        | zero => simp
        | succ k => simp
      · exact hp ▸ getElem?_slots_self
      · exact hp ▸ getElem?_slots_self
      · rw [hchains] at hflat
        refine List.Perm.trans ?_ hflat
        simp
    · refine ⟨⟨h', slots lev cur' tail, lev⟩, _, ?_, ⟨chains_slots hc.chains hc.chain,
        hdone ▸ hc.holds.slot hc.sorts lev, ?_, ?_, fun i q hi => ?_, .inr ⟨p, ?_⟩⟩, ⟨p, ?_⟩,
        hflat, hc.keep⟩
      · simp only [addPart, hrun, Option.bind_eq_bind, Option.bind_some, if_pos hlev, if_neg hfull,
          Option.pure_def]
        rw [hc.slots, set_slots]
      · rw [length_slots]
        omega
      · show lev < maxListLengthBits
        omega
      · show (slots lev cur' tail)[i]? ≠ some (some q)
        rw [getElem?_slots_gt hi, htail i hi]
        exact hs.above i q (Nat.lt_trans hlev hi)
      · exact hp ▸ getElem?_slots_self
      · exact hp ▸ getElem?_slots_self
  · have htop : ∃ p, (slots lev cur' tail)[s.maxLev]? = some (some p) := by
      rcases Nat.lt_or_eq_of_le (Nat.not_lt.1 hlev) with hlt | heq
      · rw [getElem?_slots_gt hlt, htail _ hlt]
        exact hs.top.resolve_left (by omega)
      · rw [← heq]
        exact ⟨p, hp ▸ getElem?_slots_self⟩
    refine ⟨⟨h', slots lev cur' tail, s.maxLev⟩, _, ?_, ⟨chains_slots hc.chains hc.chain,
      hdone ▸ hc.holds.slot hc.sorts lev, ?_, hmax, fun i q hi => ?_, .inr htop⟩, htop, hflat,
      hc.keep⟩
    · simp only [addPart, hrun, Option.bind_eq_bind, Option.bind_some, if_neg hlev,
        Option.pure_def, hc.slots, set_slots]
    · rw [length_slots]
      omega
    · show (slots lev cur' tail)[i]? ≠ some (some q)
      have hi' : lev < i := by
        have hi' : s.maxLev < i := hi
        omega
      rw [getElem?_slots_gt hi', htail i hi']
      exact hs.above i q hi

theorem gatherParts_spec {list : Option ν} (hparts : List.Forall₂ h.Chain part qs)
    (hlist : h.Chain list cs) (hnodup : (stack :: (qs.flatten ++ cs)).Nodup)
    (hfuel : (qs.flatten ++ cs).length < fuel) (hholds : MergeParts.Holds (leOf cmp) qs done)
    (hsorts : Sorts (leOf cmp) now cs) :
    ∃ h' list' cs', gatherParts cmp stack fuel part h list = some (h', list') ∧
      h'.Chain list' cs' ∧ Sorts (leOf cmp) (done ++ now) cs' ∧ cs'.Perm (qs.flatten ++ cs) ∧
      ∀ z, z ∉ stack :: (qs.flatten ++ cs) → h'.node z = h.node z := by
  induction part generalizing h list cs done now qs with
  | nil =>
    obtain rfl := List.forall₂_nil_left_iff.1 hparts
    obtain rfl : done = [] := hholds
    exact ⟨h, list, cs, rfl, hlist, hsorts, .refl _, fun _ _ => rfl⟩
  | cons p part ih =>
    obtain ⟨q, qs, hfirst, hrest, rfl⟩ := List.forall₂_cons_left_iff.1 hparts
    obtain ⟨early, late, rfl, hpart, hbehind⟩ := hholds
    cases p with
    | none =>
      obtain rfl := hfirst.eq_nil
      rw [hpart.eq_nil, List.append_nil]
      have hgather := ih hrest hlist hnodup hfuel hbehind hsorts
      exact hgather
    | some p =>
      obtain ⟨h₁, p₁, hrun, hchain, hrest₁, hperm, hkeep⟩ :=
        merge_part cmp hfirst hrest hlist hnodup hfuel
      obtain ⟨h', list', cs', hgather, hchain', hsorts', hperm', hkeep'⟩ :=
        ih hrest₁ hchain ((hperm.cons stack).nodup_iff.2 hnodup) (hperm.length_eq ▸ hfuel) hbehind
          (hpart.merge hsorts)
      refine ⟨h', list', cs', ?_, hchain', ?_, hperm'.trans hperm, fun z hz => ?_⟩
      · simp only [gatherParts, hrun, Option.bind_eq_bind, Option.bind_some, hgather]
      · rw [List.append_assoc]
        exact hsorts'
      · rw [hkeep' z fun hin => hz ((hperm.cons stack).mem_iff.1 hin)]
        exact hkeep z hz

theorem splitLoop_spec {s : SortVars ν} {list : Option ν} {rounds : Nat} (hs : s.Inv cmp qs done)
    (hlist : s.mem.Chain list zs) (hnodup : (stack :: (qs.flatten ++ zs)).Nodup)
    (hfuel : (qs.flatten ++ zs).length < fuel) (hrounds : zs.length < rounds)
    (htop : zs ≠ [] ∨ ∃ p, s.part[s.maxLev]? = some (some p)) :
    ∃ s' qs', splitLoop cmp stack fuel rounds s list = some s' ∧ s'.Inv cmp qs' (done ++ zs) ∧
      (∃ p, s'.part[s'.maxLev]? = some (some p)) ∧ qs'.flatten.Perm (qs.flatten ++ zs) ∧
      ∀ z, z ∉ stack :: (qs.flatten ++ zs) → s'.mem.node z = s.mem.node z := by
  induction zs generalizing s qs list done rounds with
  | nil =>
    obtain rfl : list = none := hlist
    obtain ⟨rounds, rfl⟩ : ∃ n, rounds = n + 1 := ⟨rounds - 1, by omega⟩
    rw [List.append_nil, List.append_nil]
    exact ⟨s, qs, rfl, hs, htop.resolve_left fun hne => hne rfl, .refl _, fun _ _ => rfl⟩
  | cons x zs ih =>
    obtain ⟨rfl, hrest⟩ := hlist
    obtain ⟨rounds, rfl⟩ : ∃ n, rounds = n + 1 := ⟨rounds - 1, by omega⟩
    have happend : qs.flatten ++ x :: zs = (qs.flatten ++ [x]) ++ zs := by simp
    rw [happend] at hnodup hfuel ⊢
    have hnodup' : (stack :: (qs.flatten ++ [x])).Nodup :=
      hnodup.sublist ((List.sublist_append_left _ zs).cons_cons stack)
    have hx : ∀ z ∈ qs.flatten, z ≠ x := fun z hz heq =>
      (List.nodup_append'.1 (List.nodup_cons.1 hnodup').2).2.2 hz (heq ▸ List.mem_cons_self)
    let s₁ : SortVars ν := { s with mem := s.mem.setNext x none }
    have hs₁ : s₁.Inv cmp qs done :=
      ⟨chains_congr hs.chains fun z hz => node_setNext_ne (hx z hz), hs.holds, hs.length,
        hs.maxLev, hs.above, hs.top⟩
    have hone : s₁.mem.Chain (some x) [x] := by
      refine ⟨rfl, ?_⟩
      show ((s.mem.setNext x none).node x).next = none
      rw [next_setNext, if_pos rfl]
    have hshort : (qs.flatten ++ [x]).length < fuel := by
      rw [List.length_append] at hfuel
      omega
    obtain ⟨s₂, qs₂, hadd, hs₂, htop₂, hperm, hkeep⟩ := addPart_spec cmp hs₁ hone hnodup' hshort
      (.singleton x) (List.cons_ne_nil x [])
    have hkeep₂ : ∀ z, z ∉ stack :: (qs.flatten ++ [x]) → s₂.mem.node z = s.mem.node z :=
      fun z hz => by
        have hzx : z ≠ x := fun heq => hz (by rw [heq]; simp)
        rw [hkeep z hz]
        exact node_setNext_ne hzx
    have hrest₂ : s₂.mem.Chain (s.mem.node x).next zs := hrest.congr fun z hz => by
      rw [hkeep₂ z fun hin => ?_]
      obtain ⟨hstack, hall⟩ := List.nodup_cons.1 hnodup
      rcases List.mem_cons.1 hin with rfl | hin
      · exact hstack (List.mem_append_right _ hz)
      · exact (List.nodup_append'.1 hall).2.2 hin hz
    have hperm₂ := hperm.append_right zs
    have hrounds' : zs.length < rounds := by
      rw [List.length_cons] at hrounds
      omega
    obtain ⟨s', qs', hrun, hs', htop', hperm', hkeep'⟩ := ih hs₂ hrest₂
      ((hperm₂.cons stack).nodup_iff.2 hnodup) (hperm₂.length_eq ▸ hfuel) hrounds' (.inr htop₂)
    refine ⟨s', qs', ?_, ?_, htop', hperm'.trans hperm₂, fun z hz => ?_⟩
    · simp only [splitLoop, Option.bind_eq_bind]
      exact Option.bind_eq_some_iff.2 ⟨s₂, hadd, hrun⟩
    · rw [List.append_assoc] at hs'
      exact hs'
    · rw [hkeep' z fun hin => hz ((hperm₂.cons stack).mem_iff.1 hin)]
      exact hkeep₂ z fun hin => hz (by
        rw [← List.cons_append]
        exact List.mem_append_left zs hin)

end Parts

-- ---------------------------------------------------------------------------
-- Sorting one list
-- ---------------------------------------------------------------------------

omit [DecidableEq ν] in
/-- The last node of a ring, from its head. -/
theorem joined_trail {head : ν} (hpath : h.links.Path (tail :: xs ++ [head])) :
    h.links.Joined (trail tail xs) head := by
  induction xs generalizing tail with
  | nil => exact (List.isChain_cons_cons.1 hpath).1
  | cons x xs ih => exact ih (List.isChain_cons_cons.1 hpath).2

/-- A ring is cut open behind its last node. -/
theorem chain_cut {head : ν} (hpath : h.links.Path (tail :: xs ++ [head]))
    (hnodup : (tail :: xs).Nodup) :
    (h.setNext (trail tail xs) none).Chain ((h.setNext (trail tail xs) none).node tail).next
      xs := by
  induction xs generalizing tail with
  | nil =>
    rw [next_setNext]
    exact if_pos rfl
  | cons x xs ih =>
    obtain ⟨hjoined, hrest⟩ := List.isChain_cons_cons.1 hpath
    have hlast : tail ≠ trail x xs := fun heq => (List.nodup_cons.1 hnodup).1 (heq ▸ trail_mem)
    refine ⟨?_, ih hrest (List.nodup_cons.1 hnodup).2⟩
    have hne : tail ≠ trail tail (x :: xs) := hlast
    rw [next_setNext, if_neg hne]
    exact hjoined.1

section Sorting

variable {stack head : ν} {fuel : Nat} {qs : List (List ν)}

omit [DecidableEq ν] in
theorem inv_start (h : ListMem ν) :
    SortVars.Inv cmp ⟨h, List.replicate (maxListLengthBits + 1) none, 0⟩
      (List.replicate (maxListLengthBits + 1) []) [] where
  chains := List.forall₂_iff_get.2 ⟨by simp, fun i hi hi' => by simp [Chain]⟩
  holds := MergeParts.holds_replicate _
  length := List.length_replicate
  maxLev := Nat.zero_lt_succ 19
  above := fun i p _ hget => by
    have hin := List.mem_of_getElem? hget
    cases List.eq_of_mem_replicate hin
  top := .inl rfl

omit [DecidableEq ν] in
theorem eq_nil_of_chains {part : List (Option ν)} (hc : List.Forall₂ h.Chain part qs)
    (hnone : ∀ p ∈ part, p = none) : ∀ q ∈ qs, q = [] := by
  induction hc with
  | nil => exact fun q hq => absurd hq List.not_mem_nil
  | @cons p q part qs hfirst _ ih =>
    have hq : q = [] := by
      rw [hnone p List.mem_cons_self] at hfirst
      exact hfirst.eq_nil
    have hrest := ih fun p hp => hnone p (List.mem_cons_of_mem _ hp)
    exact List.forall_mem_cons.2 ⟨hq, hrest⟩

omit [DecidableEq ν] in
/-- The highest part, and those below it. -/
theorem SortVars.Inv.highest {s : SortVars ν} (hs : s.Inv cmp qs xs) {p : ν}
    (htop : s.part[s.maxLev]? = some (some p)) :
    ∃ q early late, List.Forall₂ s.mem.Chain (s.part.take s.maxLev) (qs.take s.maxLev) ∧
      s.mem.Chain (some p) q ∧ xs = early ++ late ∧
      MergeParts.Holds (leOf cmp) (qs.take s.maxLev) late ∧ Sorts (leOf cmp) early q ∧
      qs.flatten = (qs.take s.maxLev).flatten ++ q := by
  obtain ⟨hin, hget⟩ := List.getElem?_eq_some_iff.1 htop
  have hlength := hs.chains.length_eq
  have hdrop : List.Forall₂ s.mem.Chain (s.part.drop s.maxLev) (qs.drop s.maxLev) :=
    List.forall₂_drop s.maxLev hs.chains
  rw [List.drop_eq_getElem_cons hin, hget] at hdrop
  obtain ⟨q, rest, hq, hrest, hsplit⟩ := List.forall₂_cons_left_iff.1 hdrop
  have hnil : rest = List.replicate rest.length [] := by
    refine List.eq_replicate_iff.2 ⟨rfl, eq_nil_of_chains hrest fun p hp => ?_⟩
    obtain ⟨k, hk⟩ := List.mem_iff_getElem?.1 hp
    rw [List.getElem?_drop] at hk
    cases p with
    | none => rfl
    | some p => exact absurd hk (hs.above _ p (by omega))
  have hholds := hs.holds
  rw [← List.take_append_drop s.maxLev qs, hsplit] at hholds
  obtain ⟨early, late, rfl, hlate, before, top, rfl, hsorts, hbefore⟩ :=
    MergeParts.Holds.append_iff.1 hholds
  rw [hnil] at hbefore
  obtain rfl := hbefore.eq_nil
  refine ⟨q, [] ++ top, late, List.forall₂_take s.maxLev hs.chains, hq, rfl, hlate, hsorts, ?_⟩
  have hflat : qs.flatten = (qs.take s.maxLev).flatten ++ (qs.drop s.maxLev).flatten := by
    rw [← List.flatten_append, List.take_append_drop]
  rw [hflat, hsplit, List.flatten_cons, hnil, List.flatten_replicate_nil, List.append_nil]

theorem listSort_spec (hr : h.Ring head xs) (hstack : stack ∉ head :: xs)
    (hfuel : xs.length < fuel) :
    ∃ h' ys, h.listSort cmp stack fuel head = some h' ∧ h'.Ring head ys ∧
      Sorts (leOf cmp) xs ys ∧ ∀ z, z ∉ stack :: head :: xs → h'.node z = h.node z := by
  by_cases hempty : xs = []
  · refine ⟨h, xs, ?_, hr, hempty ▸ .nil, fun _ _ => rfl⟩
    rw [listSort, if_pos (hr.listEmpty_iff.2 hempty)]
  have hfull : ¬h.listEmpty head = true := fun heq => hempty (hr.listEmpty_iff.1 heq)
  obtain ⟨hstackh, hstackx⟩ := not_or.1 (List.mem_cons.not.1 hstack)
  obtain ⟨hhead, hxs⟩ := List.nodup_cons.1 hr.nodup
  -- Every node of the list is taken into the parts.
  have hprev : (h.node head).prev = some (trail head xs) := (joined_trail hr.path).2
  have hchain := chain_cut hr.path hr.nodup
  have hflat : (List.replicate (maxListLengthBits + 1) ([] : List ν)).flatten ++ xs = xs := by
    rw [List.flatten_replicate_nil, List.nil_append]
  have hnodup : (stack :: xs).Nodup := List.nodup_cons.2 ⟨hstackx, hxs⟩
  obtain ⟨s, qs, hsplit, hs, ⟨p, htop⟩, hperm, hkeep⟩ := splitLoop_spec cmp
    (inv_start cmp (h.setNext (trail head xs) none)) hchain (hflat.symm ▸ hnodup)
    (hflat.symm ▸ hfuel) hfuel (.inl hempty)
  rw [hflat] at hperm hkeep
  rw [List.nil_append] at hs
  obtain ⟨q, early, late, hparts, hq, hxsplit, hlate, hearly, hqs⟩ := hs.highest cmp htop
  -- The parts below the highest one are gathered.
  have hperm' : ((qs.take s.maxLev).flatten ++ q).Perm xs := hqs ▸ hperm
  have hnodup' := hperm'.nodup_iff.2 hxs
  have hzone : ∀ z ∈ (qs.take s.maxLev).flatten ++ q, z ∈ xs := fun z hz => hperm'.subset hz
  have hlength := hperm'.length_eq
  rw [List.length_append] at hlength
  have hlow : (stack :: ((qs.take s.maxLev).flatten ++ [])).Nodup := by
    rw [List.append_nil]
    exact List.nodup_cons.2 ⟨fun hin => hstackx (hzone stack (List.mem_append_left q hin)),
      (List.nodup_append'.1 hnodup').1⟩
  have hshort : ((qs.take s.maxLev).flatten ++ []).length < fuel := by
    rw [List.append_nil]
    omega
  have hnil : s.mem.Chain none [] := rfl
  obtain ⟨h₂, list, cs, hgather, hcs, hsorts, hcsperm, hkeep₂⟩ := gatherParts_spec cmp hparts
    hnil hlow hshort hlate .nil
  rw [List.append_nil] at hcsperm hkeep₂ hsorts
  have hq₂ : h₂.Chain (some p) q := hq.congr fun z hz => by
    rw [hkeep₂ z fun hin => ?_]
    rcases List.mem_cons.1 hin with rfl | hin
    · exact hstackx (hzone z (List.mem_append_right _ hz))
    · exact (List.nodup_append'.1 hnodup').2.2 hin hz
  -- The last merge.
  have hall : (q ++ cs).Perm xs :=
    (List.perm_append_comm.trans (hcsperm.append_right q)).trans hperm'
  have hqne : q ≠ [] := fun heq => by
    rw [heq] at hq
    cases hq
  obtain ⟨h', hmerge, hring, hkeep'⟩ := mergeAndRestoreBackLinks_spec cmp hq₂ hcs
    (fun heq => hqne (List.append_eq_nil_iff.1 heq).1) ((hall.cons head).nodup_iff.2 hr.nodup)
    (by rw [← List.length_append, hall.length_eq]; exact hfuel)
  refine ⟨h', _, ?_, hring, ?_, fun z hz => ?_⟩
  · have hpart : s.part.getD s.maxLev none = some p := by
      rw [List.getD_eq_getElem?_getD, htop]
      rfl
    simp only [listSort, if_neg hfull, hprev, hsplit, hgather, hpart, hmerge,
      Option.bind_eq_bind, Option.bind_some]
  · rw [hxsplit]
    exact hearly.merge hsorts
  · obtain ⟨hzs, hz⟩ := not_or.1 (List.mem_cons.not.1 hz)
    obtain ⟨hzh, hzx⟩ := not_or.1 (List.mem_cons.not.1 hz)
    have hzq : z ∉ stack :: (qs.take s.maxLev).flatten := List.not_mem_cons_of_ne_of_not_mem hzs
      fun hin => hzx (hzone z (List.mem_append_left q hin))
    have hzt : z ≠ trail head xs := fun heq => hz (heq ▸ trail_mem)
    rw [hkeep' z fun hin => hz ((hall.cons head).subset hin), hkeep₂ z hzq,
      hkeep z (List.not_mem_cons_of_ne_of_not_mem hzs hzx)]
    exact node_setNext_ne hzt

end Sorting

-- ---------------------------------------------------------------------------
-- Sorting the heads
-- ---------------------------------------------------------------------------

section Heads

open Function (update update_self update_of_ne)

variable {s : ν → Option (List ν)} {stack head : ν} {fuel : Nat}

theorem Holds.listSort (hh : h.Holds s) (hhead : s head = some xs)
    (hstack : ∀ a zs, s a = some zs → stack ∉ a :: zs) (hfuel : xs.length < fuel) :
    ∃ h' ys, h.listSort cmp stack fuel head = some h' ∧ h'.Holds (update s head (some ys)) ∧
      Sorts (leOf cmp) xs ys := by
  obtain ⟨h', ys, hrun, hring, hsorts, hkeep⟩ :=
    listSort_spec cmp (hh.ring head xs hhead) (hstack head xs hhead) hfuel
  have hsub : head :: ys ⊆ stack :: head :: xs := fun z hz =>
    List.mem_cons_of_mem stack ((hsorts.perm.cons head).subset hz)
  refine ⟨h', ys, hrun, hh.change _ hring hkeep hsub fun a zs hne ha => ?_, hsorts⟩
  exact List.disjoint_cons_right.2 ⟨hstack a zs ha, hh.apart a head zs xs hne ha hhead⟩

/-- `cmp_blocks`, with the offset of the block of each node. -/
def cmpBlocks (bLoff : ν → Nat) (a b : ν) : Int :=
  if bLoff a < bLoff b then -1 else if bLoff a > bLoff b then 1 else 0

def byLoff (bLoff : ν → Nat) (a b : ν) : Bool := decide (bLoff a ≤ bLoff b)

variable {bLoff : ν → Nat}

omit [DecidableEq ν] in
theorem leOf_cmpBlocks : leOf (cmpBlocks bLoff) = byLoff bLoff := by
  funext a b
  rw [leOf, byLoff, decide_eq_decide, cmpBlocks]
  split
  · omega
  · split <;> omega

omit [DecidableEq ν] in
theorem lawful_byLoff : MergeParts.Lawful (byLoff bLoff) := by
  refine ⟨fun a b c hab hbc => ?_, fun a b => ?_⟩
  · simp only [byLoff, decide_eq_true_eq] at hab hbc ⊢
    exact hab.trans hbc
  · simp only [byLoff, Bool.or_eq_true, decide_eq_true_eq]
    exact Nat.le_total _ _

/-- `sort_file_hash_heads`, with the lists of the heads that its two walks come to. -/
def sortFileHashHeads (bLoff : ν → Nat) (stack : ν) (fuel : Nat) (h : ListMem ν)
    (heads : List ν) : Option (ListMem ν) :=
  heads.foldlM (fun h head => h.listSort (cmpBlocks bLoff) stack fuel head) h

/-- The lists, with those of `heads` in the stable order of their offsets. -/
def sortedLists (bLoff : ν → Nat) (s : ν → Option (List ν)) (heads : List ν) :
    ν → Option (List ν) := fun a =>
  if a ∈ heads then (s a).map fun xs => xs.mergeSort (byLoff bLoff) else s a

/-- Every list is sorted where it stands, by the offsets of its blocks and in the order it had
    where they are equal. All nodes stay in their lists, the lists are rings again, and the other
    lists of the memory are left alone. -/
theorem sortFileHashHeads_sorts {heads : List ν} (hh : h.Holds s) (hnodup : heads.Nodup)
    (hlists : ∀ head ∈ heads, ∃ xs, s head = some xs ∧ xs.length < fuel)
    (hstack : ∀ a zs, s a = some zs → stack ∉ a :: zs) :
    ∃ h', h.sortFileHashHeads bLoff stack fuel heads = some h' ∧
      h'.Holds (sortedLists bLoff s heads) := by
  induction heads generalizing h s with
  | nil =>
    refine ⟨h, rfl, ?_⟩
    have hsame : sortedLists bLoff s [] = s := funext fun a => if_neg List.not_mem_nil
    rwa [hsame]
  | cons head heads ih =>
    obtain ⟨hout, hrest⟩ := List.nodup_cons.1 hnodup
    obtain ⟨xs, hhead, hshort⟩ := hlists head List.mem_cons_self
    obtain ⟨h₁, ys, hrun, hh₁, hsorts⟩ := hh.listSort (cmpBlocks bLoff) hhead hstack hshort
    rw [leOf_cmpBlocks] at hsorts
    have hother : ∀ a ∈ heads, update s head (some ys) a = s a := fun a ha => by
      have hne : a ≠ head := fun heq => hout (heq ▸ ha)
      exact update_of_ne hne _ _
    obtain ⟨h', hrun', hh'⟩ := ih hh₁ hrest (fun a ha => by
        rw [hother a ha]
        exact hlists a (List.mem_cons_of_mem head ha)) fun a zs ha => by
      by_cases hah : a = head
      · obtain rfl := hah
        rw [update_self] at ha
        cases ha
        exact fun hin => hstack a xs hhead ((hsorts.perm.cons a).subset hin)
      · rw [update_of_ne hah] at ha
        exact hstack a zs ha
    have hlists' : sortedLists bLoff (update s head (some ys)) heads =
        sortedLists bLoff s (head :: heads) := by
      funext a
      rw [sortedLists, sortedLists]
      by_cases hah : a = head
      · rw [hah, if_neg hout, if_pos List.mem_cons_self, update_self, hhead, Option.map_some,
          hsorts.sorted lawful_byLoff]
      · rw [update_of_ne hah]
        simp only [List.mem_cons, hah, false_or]
    refine ⟨h', ?_, hlists' ▸ hh'⟩
    rw [sortFileHashHeads, List.foldlM_cons, hrun]
    exact hrun'

/-- Three blocks of one head, of which the last one has the smallest offset. -/
theorem sortFileHashHeads_three : ∃ h h' : ListMem (Fin 5),
    (⟨fun _ => ⟨none, none⟩⟩ : ListMem (Fin 5)).runOps (0, 0)
      [.init 0, .addTail 1 0, .addTail 2 0, .addTail 3 0] = some h ∧
    h.sortFileHashHeads (fun x : Fin 5 => 10 - x.val) 4 5 [0] = some h' ∧
    h'.listForEachEntry 0 3 = some [3, 2, 1] := by
  have hops : AllAllowed (fun _ => none)
      ([.init 0, .addTail 1 0, .addTail 2 0, .addTail 3 0] : List (ListOp (Fin 5))) := by decide
  obtain ⟨h, hrun, hh⟩ := (Holds.of_none ⟨fun _ => ⟨none, none⟩⟩).run (0, 0) hops
  have hhead : ∀ head ∈ ([0] : List (Fin 5)), ∃ xs, listsAfter (fun _ => none)
      ([.init 0, .addTail 1 0, .addTail 2 0, .addTail 3 0] : List (ListOp (Fin 5))) head =
        some xs ∧ xs.length < 5 := fun head hin => by
    obtain rfl := List.mem_singleton.1 hin
    exact ⟨[1, 2, 3], by decide, by decide⟩
  have hstack : ∀ a : Fin 5, 4 ∉ ((listsAfter (fun _ => none)
      ([.init 0, .addTail 1 0, .addTail 2 0, .addTail 3 0] : List (ListOp (Fin 5))) a).map
        (a :: ·)).getD [] := by decide
  obtain ⟨h', hsort, hh'⟩ := @sortFileHashHeads_sorts (Fin 5) _ h _ 4 5 (fun x => 10 - x.val) [0] hh
    (by decide) hhead fun a zs ha hin => hstack a (by rwa [ha])
  have hsorted : ([1, 2, 3] : List (Fin 5)).mergeSort (byLoff fun x => 10 - x.val) = [3, 2, 1] := by
    simp [List.mergeSort, byLoff]
  refine ⟨h, h', hrun, hsort, (hh'.ring 0 [3, 2, 1] ?_).listForEachEntry⟩
  rw [← hsorted]
  rfl

end Heads

end Duperemove.ListMem
