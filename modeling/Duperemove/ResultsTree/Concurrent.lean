-- SUMMARY: Search workers that insert matches concurrently leave the tree of a sequential run.
import Mathlib.Data.Set.Defs
import Duperemove.Lib.Steps
import Duperemove.ResultsTree.Invariant

/-!
# Concurrent insertion

`find_additional_dedupe` runs a pool of workers that all call `insert_result` on
one tree. Each section under a mutex is one step of a worker, and the schedule
says whose step is next. Whatever the schedule, nothing that a call has to put
in is lost or put in twice: what the tree holds together with what the workers
still have to write is the same after every step.
-/

namespace Duperemove

/-- The key of the group that a pair goes to. -/
def ResultPair.key (p : ResultPair) : Nat × DigestBytes := (p.len, p.digest)

/-- A place of one of the two extents. -/
def ResultPair.HasPlace (p : ResultPair) (x : Nat × Nat) : Prop := x = p.places.1 ∨ x = p.places.2

/-! ## The pool -/

/-- A worker and where it stands between the sections of its current call:
    `idle` in front of the first lookup of its next call, `allocated` in front of
    the second lookup, `holding` with a group in front of its mutex, and
    `counting` in front of the counters. -/
inductive SearchWorker where
  | idle (calls : List ResultPair)
  | allocated (p : ResultPair) (rest : List ResultPair)
  | holding (p : ResultPair) (addScore : Bool) (rest : List ResultPair)
  | counting (new : Bool × Bool) (rest : List ResultPair)
  deriving DecidableEq, Repr

/-- The next section of a worker. `none` is an abort. -/
def SearchWorker.step (res : ResultsTree) : SearchWorker → Option (ResultsTree × SearchWorker)
  | idle [] => some (res, idle [])
  | idle (p :: rest) =>
    match res.findDupeExtents p.digest p.len with
    | some _ => some (res, holding p true rest)
    | none => some (res, allocated p rest)
  | allocated p rest =>
    (res.allocDext p.digest p.len).map fun (addScore, res) => (res, holding p addScore rest)
  | holding p addScore rest =>
    (res.insertPair p addScore).map fun (new, res) => (res, counting new rest)
  | counting new rest => some (res.countPair new, idle rest)

structure SearchPool where
  res : ResultsTree
  workers : List SearchWorker

namespace SearchPool

def start (res : ResultsTree) (progs : List (List ResultPair)) : SearchPool :=
  ⟨res, progs.map SearchWorker.idle⟩

/-- The next section of worker `i`. -/
def step (s : SearchPool) (i : Nat) : Option SearchPool :=
  match s.workers[i]? with
  | none => some s
  | some w => (w.step s.res).map fun (res, w) => ⟨res, s.workers.set i w⟩

def run (s : SearchPool) (schedule : List Nat) : Option SearchPool := schedule.foldlM step s

/-- All calls have returned. -/
def Done (s : SearchPool) : Prop := ∀ w ∈ s.workers, w = .idle []

end SearchPool

/-! ## What one section conserves -/

namespace SearchWorker

/-- The calls whose group may not be there yet. -/
def unplaced : SearchWorker → List ResultPair
  | idle calls => calls
  | allocated p rest => p :: rest
  | holding _ _ rest => rest
  | counting _ rest => rest

/-- The calls whose extents are not in their group yet. -/
def unwritten : SearchWorker → List ResultPair
  | idle calls => calls
  | allocated p rest => p :: rest
  | holding p _ rest => p :: rest
  | counting _ rest => rest

/-- The extents that are in the tree and not counted yet. -/
def pending : SearchWorker → Nat
  | counting new _ => new.1.toNat + new.2.toNat
  | _ => 0

/-- The group that a worker holds is in the tree. -/
def Held (res : ResultsTree) : SearchWorker → Prop
  | holding p _ _ => res.root[p.key]?.isSome
  | _ => True

end SearchWorker

/-- Some extent of the group `k` is at the place `x`. -/
def ResultsTree.HasPlace (res : ResultsTree) (k : Nat × DigestBytes) (x : Nat × Nat) : Prop :=
  ∃ g, res.root[k]? = some g ∧ x ∈ g.deExtentsRoot

/-- A section of one worker: what is in the tree or still ahead stays the same. -/
structure Conserves (res : ResultsTree) (w : SearchWorker) (res' : ResultsTree)
    (w' : SearchWorker) : Prop where
  keys : ∀ k, (res'.root[k]?.isSome ∨ ∃ p ∈ w'.unplaced, p.key = k) ↔
    (res.root[k]?.isSome ∨ ∃ p ∈ w.unplaced, p.key = k)
  places : ∀ k x, (res'.HasPlace k x ∨ ∃ p ∈ w'.unwritten, p.key = k ∧ p.HasPlace x) ↔
    (res.HasPlace k x ∨ ∃ p ∈ w.unwritten, p.key = k ∧ p.HasPlace x)
  balanced : ∀ n, ResultsTree.Balanced (n + w.pending) res →
    ResultsTree.Balanced (n + w'.pending) res'
  grows : ∀ k : Nat × DigestBytes, res.root[k]?.isSome → res'.root[k]?.isSome
  held : w'.Held res'

namespace SearchWorker

variable {res : ResultsTree}

/-- The first lookup of a call that finds its group. -/
theorem conserves_found {p : ResultPair} (rest : List ResultPair)
    (hfound : res.root[p.key]?.isSome) :
    Conserves res (idle (p :: rest)) res (holding p true rest) where
  keys := by
    intro k
    simp only [unplaced, List.mem_cons, exists_eq_or_imp]
    refine ⟨Or.imp_right .inr, ?_⟩
    rintro (h | rfl | h)
    · exact .inl h
    · exact .inl hfound
    · exact .inr h
  places := fun _ _ => Iff.rfl
  balanced := fun _ => id
  grows := fun _ => id
  held := hfound

/-- The second lookup, with the insertion of a group that is still missing. -/
theorem conserves_allocated {p : ResultPair} (rest : List ResultPair) (addScore : Bool)
    {g : DupeExtents} {res' : ResultsTree} (h : ResultsTree.Allocated res p.key g res') :
    Conserves res (allocated p rest) res' (holding p addScore rest) where
  keys := by
    intro k
    simp only [unplaced, List.mem_cons, exists_eq_or_imp]
    by_cases hk : k = p.key
    · simp [hk, h.here]
    · rw [h.others k hk]
      simp [Ne.symm hk]
  places := by
    intro k x
    refine or_congr_left ?_
    unfold ResultsTree.HasPlace
    by_cases hk : k = p.key
    · rw [hk, h.here]
      rcases h.group with hold | ⟨hnone, hnew⟩
      · rw [hold]
      · rw [hnone, hnew]
        simp [dupeExtentsNew]
    · rw [h.others k hk]
  balanced := h.balanced
  grows := by
    intro k hsome
    by_cases hk : k = p.key
    · rw [hk, h.here]
      rfl
    · rwa [h.others k hk]
  held := by
    rw [Held, h.here]
    rfl

/-- The section under the mutex of the group. -/
theorem conserves_written {p : ResultPair} (addScore : Bool) (rest : List ResultPair)
    (hheld : res.root[p.key]?.isSome) :
    ∃ new res', res.insertPair p addScore = some (new, res') ∧
      Conserves res (holding p addScore rest) res' (counting new rest) := by
  obtain ⟨g, hg⟩ := Option.isSome_iff_exists.1 hheld
  obtain ⟨new, g', res', hinsert, hgrown, hhere, hothers, hbalanced⟩ :=
    ResultsTree.insertPair_spec p addScore hg
  have hsome : ∀ k : Nat × DigestBytes, res'.root[k]?.isSome = res.root[k]?.isSome := by
    intro k
    by_cases hk : k = p.key
    · rw [hk, hg]
      exact (congrArg Option.isSome hhere).trans rfl
    · rw [hothers k hk]
  refine ⟨new, res', hinsert, ?_, ?_, hbalanced, ?_, trivial⟩
  · intro k
    rw [hsome]
    rfl
  · intro k x
    simp only [unwritten, List.mem_cons, exists_eq_or_imp]
    rw [← or_assoc]
    refine or_congr_left ?_
    unfold ResultsTree.HasPlace
    by_cases hk : k = p.key
    · have hroot := hgrown.root x
      rw [hk, hg]
      change (∃ g, res'.root[(p.len, p.digest)]? = some g ∧ _) ↔ _
      rw [hhere]
      simp only [Option.some.injEq, exists_eq_left', true_and, hroot]
      exact or_comm
    · rw [hothers k hk]
      simp [Ne.symm hk]
  · intro k hk
    rwa [hsome]

/-- The section that counts. -/
theorem conserves_counted (new : Bool × Bool) (rest : List ResultPair) :
    Conserves res (counting new rest) (res.countPair new) (idle rest) where
  keys := fun _ => Iff.rfl
  places := fun _ _ => Iff.rfl
  balanced := by
    intro n h
    rw [ResultsTree.countPair, Nat.add_assoc]
    exact ResultsTree.Balanced.count h
  grows := fun _ => id
  held := trivial

/-- No section aborts, and each one conserves what is to be inserted. -/
theorem step_conserves {w : SearchWorker} (hheld : w.Held res) :
    ∃ res' w', w.step res = some (res', w') ∧ Conserves res w res' w' := by
  cases w with
  | idle calls =>
    cases calls with
    | nil =>
      exact ⟨res, idle [], rfl, fun _ => Iff.rfl, fun _ _ => Iff.rfl, fun _ => id, fun _ => id,
        trivial⟩
    | cons p rest =>
      cases hfind : res.findDupeExtents p.digest p.len with
      | some g =>
        refine ⟨res, holding p true rest, by simp only [step, hfind], conserves_found rest ?_⟩
        exact Option.isSome_of_eq_some hfind
      | none =>
        refine ⟨res, allocated p rest, by simp only [step, hfind], fun _ => Iff.rfl,
          fun _ _ => Iff.rfl, fun _ => id, fun _ => id, trivial⟩
  | allocated p rest =>
    obtain ⟨addScore, g, res', halloc, hallocated⟩ :=
      ResultsTree.allocDext_allocated res p.digest p.len
    exact ⟨res', holding p addScore rest, by rw [step, halloc, Option.map_some],
      conserves_allocated rest addScore hallocated⟩
  | holding p addScore rest =>
    obtain ⟨new, res', hinsert, hconserves⟩ := conserves_written addScore rest hheld
    exact ⟨res', counting new rest, by rw [step, hinsert, Option.map_some], hconserves⟩
  | counting new rest => exact ⟨_, _, rfl, conserves_counted new rest⟩

end SearchWorker

/-! ## Runs of the pool -/

namespace SearchPool

def unplaced (s : SearchPool) : List ResultPair := s.workers.flatMap SearchWorker.unplaced

def unwritten (s : SearchPool) : List ResultPair := s.workers.flatMap SearchWorker.unwritten

def pending (s : SearchPool) : Nat := (s.workers.map SearchWorker.pending).sum

/-- What is in the tree or still ahead is the tree `res` with all of `calls`. -/
structure Inserts (res : ResultsTree) (calls : List ResultPair) (s : SearchPool) : Prop where
  keys : ∀ k, (s.res.root[k]?.isSome ∨ ∃ p ∈ s.unplaced, p.key = k) ↔
    (res.root[k]?.isSome ∨ ∃ p ∈ calls, p.key = k)
  places : ∀ k x, (s.res.HasPlace k x ∨ ∃ p ∈ s.unwritten, p.key = k ∧ p.HasPlace x) ↔
    (res.HasPlace k x ∨ ∃ p ∈ calls, p.key = k ∧ p.HasPlace x)
  balanced : ResultsTree.Balanced s.pending s.res
  held : ∀ w ∈ s.workers, w.Held s.res

section Run

variable {res : ResultsTree} {calls : List ResultPair}

/-- What the workers on both sides of one that takes a step have ahead does not
    change. -/
theorem or_exists_mem_iff {A A' : Prop} {as bs b' b : List ResultPair} {P : ResultPair → Prop}
    (h : (A' ∨ ∃ p ∈ b', P p) ↔ (A ∨ ∃ p ∈ b, P p)) :
    (A' ∨ ∃ p ∈ as ++ (b' ++ bs), P p) ↔ (A ∨ ∃ p ∈ as ++ (b ++ bs), P p) := by
  have hturn : ∀ Q B X Y : Prop, (Q ∨ X ∨ B ∨ Y) ↔ ((Q ∨ B) ∨ X ∨ Y) := by tauto
  simp only [List.mem_append, or_and_right, exists_or]
  rw [hturn, h, ← hturn]

theorem Inserts.step_split {s : SearchPool} {as bs : List SearchWorker} {w w' : SearchWorker}
    {res' : ResultsTree} (h : Inserts res calls s) (hworkers : s.workers = as ++ w :: bs)
    (hconserves : Conserves s.res w res' w') :
    Inserts res calls ⟨res', as ++ w' :: bs⟩ where
  keys := by
    intro k
    rw [← h.keys k, unplaced, unplaced, hworkers]
    simp only [List.flatMap_append, List.flatMap_cons]
    exact or_exists_mem_iff (hconserves.keys k)
  places := by
    intro k x
    rw [← h.places k x, unwritten, unwritten, hworkers]
    simp only [List.flatMap_append, List.flatMap_cons]
    exact or_exists_mem_iff (hconserves.places k x)
  balanced := by
    have hbalanced := h.balanced
    rw [pending, hworkers] at hbalanced
    simp only [List.map_append, List.map_cons, List.sum_append, List.sum_cons] at hbalanced
    have hstep := hconserves.balanced ((as.map SearchWorker.pending).sum +
      (bs.map SearchWorker.pending).sum) (by convert hbalanced using 1; omega)
    simp only [pending, List.map_append, List.map_cons, List.sum_append, List.sum_cons]
    convert hstep using 1
    omega
  held := by
    have hother : ∀ v ∈ s.workers, v.Held res' := by
      intro v hv
      have hheld := h.held v hv
      cases v with
      | holding p addScore rest => exact hconserves.grows _ hheld
      | idle calls => trivial
      | allocated p rest => trivial
      | counting new rest => trivial
    intro v hv
    simp only [List.mem_append, List.mem_cons] at hv
    rcases hv with hv | rfl | hv
    · exact hother v (by simp [hworkers, hv])
    · exact hconserves.held
    · exact hother v (by simp [hworkers, hv])

/-- A step of any worker succeeds and conserves what is to be inserted. -/
theorem Inserts.step {s : SearchPool} (h : Inserts res calls s) (i : Nat) :
    ∃ s', s.step i = some s' ∧ Inserts res calls s' := by
  unfold SearchPool.step
  cases hw : s.workers[i]? with
  | none => exact ⟨s, rfl, h⟩
  | some w =>
    obtain ⟨hi, hget⟩ := List.getElem?_eq_some_iff.1 hw
    obtain ⟨res', w', hstep, hconserves⟩ :=
      SearchWorker.step_conserves (h.held w (List.mem_of_getElem? hw))
    have hsplit : s.workers = s.workers.take i ++ w :: s.workers.drop (i + 1) := by
      rw [← hget, List.getElem_cons_drop, List.take_append_drop]
    refine ⟨⟨res', s.workers.set i w'⟩, by simp only [hstep, Option.map_some], ?_⟩
    rw [List.set_eq_take_append_cons_drop, if_pos hi]
    exact h.step_split hsplit hconserves

theorem Inserts.run {s : SearchPool} (h : Inserts res calls s) (schedule : List Nat) :
    ∃ s', s.run schedule = some s' ∧ Inserts res calls s' := by
  induction schedule generalizing s with
  | nil => exact ⟨s, rfl, h⟩
  | cons i schedule ih =>
    obtain ⟨s₁, hstep, h₁⟩ := h.step i
    obtain ⟨s', hrun, h'⟩ := ih h₁
    exact ⟨s', Steps.run_cons.2 ⟨s₁, hstep, hrun⟩, h'⟩

theorem inserts_start (hbalanced : ResultsTree.Balanced 0 res) (progs : List (List ResultPair)) :
    Inserts res progs.flatten (start res progs) where
  keys := by
    intro k
    simp [start, unplaced, List.flatMap_map, SearchWorker.unplaced]
  places := by
    intro k x
    simp [start, unwritten, List.flatMap_map, SearchWorker.unwritten]
  balanced := by
    have hpending : (start res progs).pending = 0 := by
      simp [start, pending, SearchWorker.pending, Function.comp_def]
    rw [hpending]
    exact hbalanced
  held := by
    intro w hw
    obtain ⟨calls, -, rfl⟩ := List.mem_map.1 hw
    trivial

end Run

end SearchPool

/-! ## Sequential runs -/

theorem Conserves.trans {res res₁ res₂ : ResultsTree} {w w₁ w₂ : SearchWorker}
    (h : Conserves res w res₁ w₁) (h' : Conserves res₁ w₁ res₂ w₂) : Conserves res w res₂ w₂ where
  keys := fun k => (h'.keys k).trans (h.keys k)
  places := fun k x => (h'.places k x).trans (h.places k x)
  balanced := fun n hn => h'.balanced n (h.balanced n hn)
  grows := fun k hk => h'.grows k (h.grows k hk)
  held := h'.held

/-- A call that is not interrupted runs its sections one after another. -/
theorem insertResult_conserves (res : ResultsTree) (p : ResultPair) (rest : List ResultPair) :
    ∃ res', res.insertResult p = some res' ∧ Conserves res (.idle (p :: rest)) res' (.idle rest) := by
  obtain ⟨addScore, res₁, hfind, hconserves₁⟩ : ∃ addScore res₁,
      res.findAllocScore p.digest p.len = some (addScore, res₁) ∧
      Conserves res (.idle (p :: rest)) res₁ (.holding p addScore rest) := by
    unfold ResultsTree.findAllocScore
    cases hfind : res.findDupeExtents p.digest p.len with
    | some g =>
      refine ⟨true, res, rfl, SearchWorker.conserves_found rest ?_⟩
      exact Option.isSome_of_eq_some hfind
    | none =>
      obtain ⟨addScore, g, res', halloc, hallocated⟩ :=
        ResultsTree.allocDext_allocated res p.digest p.len
      refine ⟨addScore, res', halloc, Conserves.trans ?_
        (SearchWorker.conserves_allocated rest addScore hallocated)⟩
      exact ⟨fun _ => Iff.rfl, fun _ _ => Iff.rfl, fun _ => id, fun _ => id, trivial⟩
  obtain ⟨new, res₂, hinsert, hconserves₂⟩ :=
    SearchWorker.conserves_written addScore rest hconserves₁.held
  refine ⟨res₂.countPair new, ?_, ?_⟩
  · simp only [ResultsTree.insertResult, hfind, Option.bind_some, hinsert, Option.map_some]
  · exact (hconserves₁.trans hconserves₂).trans (SearchWorker.conserves_counted new rest)

/-- The calls of a sequential run are the calls of a pool with one worker. -/
theorem foldlM_insertResult {res res₁ : ResultsTree} {calls : List ResultPair}
    (order : List ResultPair) (h : SearchPool.Inserts res calls ⟨res₁, [.idle order]⟩) :
    ∃ res', order.foldlM ResultsTree.insertResult res₁ = some res' ∧
      SearchPool.Inserts res calls ⟨res', [.idle []]⟩ := by
  induction order generalizing res₁ with
  | nil => exact ⟨res₁, rfl, h⟩
  | cons p order ih =>
    obtain ⟨res₂, hinsert, hconserves⟩ := insertResult_conserves res₁ p order
    obtain ⟨res', hfold, h'⟩ :=
      ih (@SearchPool.Inserts.step_split _ _ _ [] [] _ _ _ h rfl hconserves)
    exact ⟨res', Steps.run_cons.2 ⟨res₂, hinsert, hfold⟩, h'⟩

/-! ## The comparison -/

namespace ResultsTree

/-- The tree as a map from lengths and digests to sets of places. -/
def placesAt (res : ResultsTree) (len : Nat) (digest : DigestBytes) : Option (Set (Nat × Nat)) :=
  (res.findDupeExtents digest len).map fun g => {x | x ∈ g.deExtentsRoot}

theorem placesAt_eq_of_iff {res res' : ResultsTree}
    (hkeys : ∀ k : Nat × DigestBytes, res.root[k]?.isSome ↔ res'.root[k]?.isSome)
    (hplaces : ∀ k x, res.HasPlace k x ↔ res'.HasPlace k x) (len : Nat) (digest : DigestBytes) :
    res.placesAt len digest = res'.placesAt len digest := by
  have hkey := hkeys (len, digest)
  have hplace := hplaces (len, digest)
  unfold HasPlace at hplace
  unfold placesAt findDupeExtents
  cases hg : res.root[(len, digest)]? with
  | none =>
    rw [hg] at hkey
    have hnone : res'.root[(len, digest)]? = none := by simpa using hkey
    rw [hnone]
  | some g =>
    rw [hg] at hkey hplace
    obtain ⟨g', hg'⟩ := Option.isSome_iff_exists.1 (hkey.1 rfl)
    rw [hg'] at hplace ⊢
    simp only [Option.some.injEq, exists_eq_left'] at hplace
    simp only [Option.map_some, hplace]

/-- Two groups with the same places have the same number of extents. -/
theorem numDupes_eq_of_root {g g' : DupeExtents}
    (h : ∀ x, x ∈ g.deExtentsRoot ↔ x ∈ g'.deExtentsRoot) : g.deNumDupes = g'.deNumDupes := by
  have hperm : (g.deExtents.map ResultExtent.key).Perm (g'.deExtents.map ResultExtent.key) := by
    rw [List.perm_ext_iff_of_nodup g.keys_nodup g'.keys_nodup]
    intro x
    rw [g.mem_map_key, g'.mem_map_key, h]
  have hlength := hperm.length_eq
  rw [List.length_map, List.length_map] at hlength
  rw [g.numDupes_eq, g'.numDupes_eq, hlength]

/-- The counters are determined by the places. -/
theorem counters_eq_of_placesAt {res res' : ResultsTree} (h : Balanced 0 res)
    (h' : Balanced 0 res')
    (hplaces : ∀ len digest, res.placesAt len digest = res'.placesAt len digest) :
    res.numDupes = res'.numDupes ∧ res.numExtents = res'.numExtents := by
  have hnum : ∀ k : Nat × DigestBytes,
      res.root[k]?.map DupeExtents.deNumDupes = res'.root[k]?.map DupeExtents.deNumDupes := by
    rintro ⟨len, digest⟩
    have hat := hplaces len digest
    unfold placesAt findDupeExtents at hat
    cases hg : res.root[(len, digest)]? with
    | none =>
      rw [hg] at hat
      have hnone : res'.root[(len, digest)]? = none := by simpa using hat.symm
      rw [hnone]
    | some g =>
      rw [hg, Option.map_some] at hat
      obtain ⟨g', hg', hset⟩ := Option.map_eq_some_iff.1 hat.symm
      rw [hg', Option.map_some, Option.map_some]
      exact congrArg some (numDupes_eq_of_root fun x => (Set.ext_iff.1 hset x).symm)
  have hone : ∀ k : Nat × DigestBytes,
      res.root[k]?.map (fun _ => 1) = res'.root[k]?.map (fun _ => 1) := by
    intro k
    simpa [Option.map_map, Function.comp_def] using congrArg (Option.map fun _ => 1) (hnum k)
  constructor
  · rw [h.numDupes, h'.numDupes, ← MapTotal.total_one, ← MapTotal.total_one]
    exact MapTotal.total_congr hone
  · have hsum := MapTotal.total_congr hnum
    rw [← h.numExtents, ← h'.numExtents] at hsum
    exact hsum

end ResultsTree

namespace SearchPool

/-- When all calls have returned, the tree holds what was there and what the calls
    were to insert. -/
theorem Inserts.done {res : ResultsTree} {calls : List ResultPair} {s : SearchPool}
    (h : Inserts res calls s) (hdone : s.Done) :
    (∀ k : Nat × DigestBytes, s.res.root[k]?.isSome ↔
      (res.root[k]?.isSome ∨ ∃ p ∈ calls, p.key = k)) ∧
    (∀ k x, s.res.HasPlace k x ↔
      (res.HasPlace k x ∨ ∃ p ∈ calls, p.key = k ∧ p.HasPlace x)) ∧
    ResultsTree.Balanced 0 s.res := by
  have hunplaced : s.unplaced = [] := by
    apply List.flatMap_eq_nil_iff.2
    intro w hw
    rw [hdone w hw]
    rfl
  have hunwritten : s.unwritten = [] := by
    apply List.flatMap_eq_nil_iff.2
    intro w hw
    rw [hdone w hw]
    rfl
  have hpending : s.pending = 0 := by
    apply List.sum_eq_zero
    intro n hn
    obtain ⟨w, hw, rfl⟩ := List.mem_map.1 hn
    rw [hdone w hw]
    rfl
  refine ⟨fun k => ?_, fun k x => ?_, ?_⟩
  · have hkeys := h.keys k
    rw [hunplaced] at hkeys
    simpa using hkeys
  · have hplaces := h.places k x
    rw [hunwritten] at hplaces
    simpa using hplaces
  · rw [← hpending]
    exact h.balanced

/-- No schedule aborts, and a schedule in which all calls return leaves the tree
    and the counters of a sequential run of the calls, in any order. -/
theorem run_eq_sequential {res : ResultsTree} (hres : ResultsTree.Reachable res)
    (progs : List (List ResultPair)) (schedule : List Nat) :
    ∃ s, (start res progs).run schedule = some s ∧
      (s.Done → ∀ order : List ResultPair, order.Perm progs.flatten →
        ∃ res', order.foldlM ResultsTree.insertResult res = some res' ∧
          (∀ len digest, s.res.placesAt len digest = res'.placesAt len digest) ∧
          s.res.numDupes = res'.numDupes ∧ s.res.numExtents = res'.numExtents) := by
  have hbalanced := hres.consistent.balanced
  obtain ⟨s, hrun, hinserts⟩ := (inserts_start hbalanced progs).run schedule
  refine ⟨s, hrun, ?_⟩
  intro hdone order hperm
  have hstart := inserts_start hbalanced [order]
  rw [List.flatten_singleton] at hstart
  obtain ⟨res', hfold, hinserts'⟩ := foldlM_insertResult order hstart
  obtain ⟨hkeys, hplaces, hbalanced₁⟩ := hinserts.done hdone
  obtain ⟨hkeys', hplaces', hbalanced₂⟩ := hinserts'.done (by simp [Done])
  have hat : ∀ len digest, s.res.placesAt len digest = res'.placesAt len digest := by
    apply ResultsTree.placesAt_eq_of_iff
    · intro k
      rw [hkeys, hkeys']
      simp only [hperm.mem_iff]
    · intro k x
      rw [hplaces, hplaces']
      simp only [hperm.mem_iff]
  exact ⟨res', hfold, hat, ResultsTree.counters_eq_of_placesAt hbalanced₁ hbalanced₂ hat⟩

/-- Two workers that insert the same match at the same time: both look it up before
    one of them inserts the group. -/
theorem run_eq_sequential_race :
    ∃ s, (start .empty [[ResultsTree.pageMatch], [ResultsTree.pageMatch]]).run
        [0, 1, 0, 1, 1, 0, 0, 1] = some s ∧ s.Done ∧ s.res.numDupes = 1 ∧ s.res.numExtents = 2 ∧
      ∃ res', [ResultsTree.pageMatch, ResultsTree.pageMatch].foldlM ResultsTree.insertResult .empty =
        some res' ∧ s.res.numExtents = res'.numExtents := by
  obtain ⟨s, hrun, hsequential⟩ := run_eq_sequential .init
    [[ResultsTree.pageMatch], [ResultsTree.pageMatch]] [0, 1, 0, 1, 1, 0, 0, 1]
  have hends : ((start .empty [[ResultsTree.pageMatch], [ResultsTree.pageMatch]]).run
      [0, 1, 0, 1, 1, 0, 0, 1]).map (fun s => (s.workers, s.res.numDupes, s.res.numExtents)) =
        some ([.idle [], .idle []], 1, 2) := by
    decide +kernel
  rw [hrun] at hends
  simp only [Option.map_some, Option.some.injEq, Prod.mk.injEq] at hends
  obtain ⟨hworkers, hnumDupes, hnumExtents⟩ := hends
  have hdone : s.Done := by
    intro w hw
    simpa [hworkers] using hw
  obtain ⟨res', hfold, -, -, hsame⟩ := hsequential hdone _ (.refl _)
  exact ⟨s, hrun, hdone, hnumDupes, hnumExtents, res', hfold, hsame⟩

end SearchPool

end Duperemove
