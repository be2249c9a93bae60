import Segmented.Proofs.Disposal
import Segmented.Proofs.Rearrange
import Segmented.Proofs.Refill

/-! The stable sort. There is one list in order in which elements of the same rank keep their places
relative to each other, and every sequence is left with it, be it sorted where it is or built
anew. -/

namespace Segmented

variable {σ α : Type} {order : α → α → Ordering}

/-! ### Lists -/

/-- Neither of the two elements is less than the other. -/
def level (order : α → α → Ordering) (x y : α) : Bool := (order x y).isGE && (order y x).isGE

/-- `ys` holds the elements of `xs` in order, those of the same rank as any one element as in
`xs`. -/
structure StablySorted (order : α → α → Ordering) (xs ys : List α) : Prop where
  permuted : ys.Perm xs
  sorted : ys.Pairwise fun x y => order y x ≠ .lt
  stable : ∀ x, ys.filter (level order x) = xs.filter (level order x)

theorem level_iff {x y : α} : level order x y ↔ order x y ≠ .lt ∧ order y x ≠ .lt := by
  simp [level, Ordering.isGE_iff_ne_lt]

section

variable [weak : IsStrictWeakOrder α fun x y => order x y = .lt]

include weak

open Introsort (ne_lt_of_lt ne_lt_trans)

theorem ne_lt_self (x : α) : order x x ≠ .lt := weak.irrefl x

theorem level_self (x : α) : level order x x := level_iff.mpr ⟨ne_lt_self x, ne_lt_self x⟩

theorem isGE_trans {x y z : α} (first : (order y x).isGE) (second : (order z y).isGE) :
    (order z x).isGE := by
  rw [Ordering.isGE_iff_ne_lt] at first second ⊢
  exact ne_lt_trans first second

theorem isGE_total (x y : α) : ((order y x).isGE || (order x y).isGE) = true := by
  rw [Bool.or_eq_true, Ordering.isGE_iff_ne_lt, Ordering.isGE_iff_ne_lt]
  by_cases before : order y x = .lt
  · exact .inr (ne_lt_of_lt before)
  · exact .inl before

theorem stablySorted_stableSort (xs : List α) : StablySorted order xs (stableSort order xs) where
  permuted := List.mergeSort_perm xs _
  sorted := by
    have sorted : (stableSort order xs).Pairwise fun x y => (order y x).isGE :=
      List.pairwise_mergeSort (fun _ _ _ => isGE_trans) isGE_total xs
    exact sorted.imp Ordering.isGE_iff_ne_lt.mp
  stable x := by
    have ranked : (xs.filter (level order x)).Pairwise fun y z => (order z y).isGE := by
      apply List.pairwise_of_forall_mem_list
      intro y member z member'
      have same := level_iff.mp (List.mem_filter.mp member).2
      have same' := level_iff.mp (List.mem_filter.mp member').2
      exact Ordering.isGE_iff_ne_lt.mpr (ne_lt_trans same.1 same'.2)
    have kept : (xs.filter (level order x)).Sublist (stableSort order xs) :=
      List.sublist_mergeSort (fun _ _ _ => isGE_trans) isGE_total ranked List.filter_sublist
    have within := kept.filter (level order x)
    rw [List.filter_filter, funext fun y => Bool.and_self (level order x y)] at within
    exact (within.eq_of_length ((List.mergeSort_perm xs _).filter _).length_eq.symm).symm

/-- An element is in every list that has the same elements of its rank. -/
theorem mem_of_filter_eq {x : α} {ys zs : List α} (present : x ∈ ys)
    (same : ys.filter (level order x) = zs.filter (level order x)) : x ∈ zs := by
  have member : x ∈ ys.filter (level order x) := List.mem_filter.mpr ⟨present, level_self x⟩
  exact (List.mem_filter.mp (same ▸ member)).1

theorem ne_lt_of_mem_cons {x y : α} {ys : List α} (member : x ∈ y :: ys)
    (sorted : (y :: ys).Pairwise fun x y => order y x ≠ .lt) : order x y ≠ .lt := by
  rcases List.mem_cons.mp member with rfl | later
  · exact ne_lt_self x
  · exact List.rel_of_pairwise_cons sorted later

/-- Lists in order that agree on what has the rank of any one element are the same. -/
theorem eq_of_sorted {ys zs : List α} (sorted : ys.Pairwise fun x y => order y x ≠ .lt)
    (sorted' : zs.Pairwise fun x y => order y x ≠ .lt)
    (same : ∀ x, ys.filter (level order x) = zs.filter (level order x)) : ys = zs := by
  induction ys generalizing zs with
  | nil =>
    cases zs with
    | nil => rfl
    | cons z zs => exact absurd (mem_of_filter_eq List.mem_cons_self (same z).symm) List.not_mem_nil
  | cons y ys ih =>
    cases zs with
    | nil => exact absurd (mem_of_filter_eq List.mem_cons_self (same y)) List.not_mem_nil
    | cons z zs =>
      have low := ne_lt_of_mem_cons (mem_of_filter_eq List.mem_cons_self (same y)) sorted'
      have high := ne_lt_of_mem_cons (mem_of_filter_eq List.mem_cons_self (same z).symm) sorted
      have first := same y
      rw [List.filter_cons_of_pos (level_self y),
        List.filter_cons_of_pos (level_iff.mpr ⟨low, high⟩)] at first
      obtain rfl : y = z := (List.cons.inj first).1
      refine congrArg (y :: ·) (ih sorted.of_cons sorted'.of_cons fun x => ?_)
      have whole := same x
      rw [List.filter_cons, List.filter_cons] at whole
      split at whole
      · exact (List.cons.inj whole).2
      · exact whole

/-- The stable sort of a list is the only one. -/
theorem stablySorted_iff {xs ys : List α} :
    StablySorted order xs ys ↔ ys = stableSort order xs := by
  have sorts : StablySorted order xs (stableSort order xs) := stablySorted_stableSort xs
  constructor
  · intro sorts'
    exact eq_of_sorted sorts'.sorted sorts.sorted fun x =>
      (sorts'.stable x).trans (sorts.stable x).symm
  · rintro rfl
    exact sorts

end

/-! ### Sequences -/

namespace Sequence

variable [Allocator σ α] {s : Sequence α}

omit [Allocator σ α] in
theorem updateTail_versioned (change : Buffer α → Depot.Step σ (Buffer α)) (version : UInt16)
    (s : Sequence α) : ({ s with version } : Sequence α).updateTail change =
      (fun s' => { s' with version }) <$> s.updateTail change := by
  obtain ⟨root, length, tail⟩ := s
  cases tail with
  | none => rfl
  | some number =>
    cases root with
    | none => rfl
    | some root => simp only [updateTail, detach, map_bind, map_pure]

/-- A push does not look at the version. -/
theorem push_versioned (x : α) (version : UInt16) (s : Sequence α) :
    ({ s with version } : Sequence α).push x =
      (fun s' => { s' with version := version + 1 }) <$>
        (s.push x : Depot.Step σ (Sequence α)) := by
  have same : ({ s with version } : Sequence α).tailSegment? = s.tailSegment? := rfl
  unfold push
  dsimp only
  rw [same]
  split
  · rw [updateTail_versioned]
    simp only [map_bind, bind_map_left, map_pure]
    rfl
  · unfold pushDeep detach
    cases s.root <;> simp only [map_bind, map_pure] <;> rfl

theorem extend_versioned (xs : List α) (version later : UInt16) (s : Sequence α) :
    (fun s' => { s' with version := later }) <$> ({ s with version } : Sequence α).extend xs =
      (fun s' => { s' with version := later }) <$>
        (s.extend xs : Depot.Step σ (Sequence α)) := by
  induction xs generalizing version s with
  | nil => rfl
  | cons x xs ih =>
    unfold extend
    rw [List.foldlM_cons, List.foldlM_cons, push_versioned]
    simp only [map_bind, bind_map_left]
    exact congrArg (s.push x >>= ·) (funext fun s' => ih (version + 1) s')

/-- The depot after every segment of a deep sequence has gone back to it. -/
def emptied (s : Sequence α) (depot : Depot σ) : Depot σ :=
  let dismantle : Depot.Step σ Unit := do
    let (elements, _) ← s.takeAll
    Depot.notify (.sortingRebuilt elements.length)
  (dismantle.run depot).2

/-- A new sequence of the same options, sized for as many elements at first, into which the sorted
elements are pushed one by one. -/
def rebuilt (order : α → α → Ordering) (s : Sequence α) : Depot.Step σ (Sequence α) :=
  extend (stableSort order s.toList) { options := s.options, firstCapacity := s.firstCapacity }

theorem Valid.calls_emptied (valid : s.Valid) (depot : Depot σ) :
    (s.emptied depot).calls = depot.calls ++
      (s.segments.toList.map fun buffer =>
        Call.release buffer.capacity 0 s.options.clearsOnReturn).toArray := by
  have stored : ∀ buffer ∈ s.segments.toList.map Buffer.cleared, 0 < buffer.capacity := by
    intro buffer member
    obtain ⟨full, present, rfl⟩ := List.mem_map.mp member
    exact (valid.stored full present).trans_eq (Buffer.capacity_cleared full).symm
  have back := calls_forM_reclaim s.options.clearsOnReturn stored depot
  rw [List.forM_eq_forM, List.forM_map, ← List.forM_eq_forM, ← List.forM_toArray, List.map_map]
    at back
  exact back

theorem run_sort_of_deep (flat : s.flat? = none) (live : s.disposed = false) (depot : Depot σ) :
    (s.sort order).run depot =
      let after := (s.rebuilt order).run (s.emptied depot)
      ({ after.1 with version := s.version + 1 }, after.2) := by
  have fresh : ({ s with root := none, length := 0, tail := none } : Sequence α) =
      { ({ options := s.options, firstCapacity := s.firstCapacity } : Sequence α) with
        version := s.version } := by
    rw [live]
  have pushed := extend_versioned (σ := σ) (stableSort order s.toList) s.version (s.version + 1)
    { options := s.options, firstCapacity := s.firstCapacity }
  have renamed := congrArg (fun step => step.run (s.emptied depot)) pushed
  unfold sort
  rw [flat]
  refine Eq.trans ?_ renamed
  unfold sortRebuilt emptied takeAll
  rw [fresh]
  rfl

variable [LawfulAllocator σ α] [BEq α] [Inhabited α]

/-- A sort leaves the one list that is sorted stably, one version later whatever the length, with
the tail at the last segment. A sequence in one segment is sorted where it is. All segments of a
deeper one go back, in order and empty, and then the tree is the one that a new sequence gets when
the sorted elements are pushed one by one. -/
theorem Reachable.sort_stably (reachable : s.Reachable) (live : s.disposed = false)
    (order : α → α → Ordering) [IsStrictWeakOrder α fun x y => order x y = .lt] (depot : Depot σ)
    (sound : LawfulAllocator.Sound depot.allocator) :
    ∃ s' depot', ((Edit.sort order).apply s).run depot = ((.ok .done, s'), depot') ∧
      (∀ ys, StablySorted order s.toList ys ↔ ys = s'.toList) ∧
      s'.version = s.version + 1 ∧
      s'.tail = (if s'.length = 0 then none else some (s'.segmentCount - 1)) ∧
      s'.tailSegment? = s'.segments.toList.getLast? ∧
      (s.depth ≤ 1 → depot' = depot ∧
        s'.segments.toList.map Buffer.outline = s.segments.toList.map Buffer.outline) ∧
      (1 < s.depth →
        (s.emptied depot).calls = depot.calls ++ (s.segments.toList.map fun buffer =>
          Call.release buffer.capacity 0 s.options.clearsOnReturn).toArray ∧
        ((s.rebuilt order).run (s.emptied depot)).1.root = s'.root ∧
        ((s.rebuilt order).run (s.emptied depot)).2 = depot') := by
  have valid := reachable.valid
  have accepted : (Edit.sort order).refusal? s = none := by
    simp [Edit.refusal?, Edit.violation?, live]
  have run := Edit.run_apply_of_accepted accepted depot
  have after : ((Edit.sort order).apply s).run depot =
      ((.ok .done, ((s.sort order).run depot).1), ((s.sort order).run depot).2) := run
  have later : ((s.sort order).run depot).1.Reachable := by
    have reached := Reachable.edit (.sort order) depot sound reachable
    rwa [after] at reached
  have follows := (ensures_sort valid order depot sound).2
  have shape := later.wellFormed
  refine ⟨_, _, after, fun ys => ?_, ?_, shape.tail, shape.tailSegment, fun shallow => ?_,
    fun deep => ?_⟩
  · rw [follows.elements]
    exact stablySorted_iff
  · exact returns_sort order s depot
  · obtain ⟨items, flat⟩ := exists_flat shallow
    obtain rfl := flat?_eq_toArray flat
    have here : (s.sort order).run depot =
        ((s.refill (stableSort order s.toArray.toList).toArray).bump, depot) := by
      unfold sort
      rw [flat]
      rfl
    rw [here]
    exact ⟨rfl, valid.outlines_refill (valid.size_stableSort order)⟩
  · rw [run_sort_of_deep (flat?_of_deep deep) live]
    exact ⟨valid.calls_emptied depot, rfl, rfl⟩

/-- Three segments, in which every remainder by seven occurs several times. -/
theorem sort_stably_remainders :
    let s : Sequence Nat := onHeap [.extend (List.range 40)]
    let order : Nat → Nat → Ordering := compareOn (· % 7)
    let depot : Depot (Heap Nat) := { allocator := ⟨⟩ }
    s.disposed = false ∧ 1 < s.depth ∧ ∃ s' depot',
      ((Edit.sort order).apply s).run depot = ((.ok .done, s'), depot') ∧
      (∀ ys, StablySorted order s.toList ys ↔ ys = s'.toList) ∧
      (s.emptied depot).calls.toList =
        [.release 16 0 true, .release 16 0 true, .release 16 0 true] ∧
      ((s.rebuilt order).run (s.emptied depot)).1.root = s'.root := by
  intro s order depot
  have live : s.disposed = false := by decide +kernel
  have deep : 1 < s.depth := by decide +kernel
  have back : (s.emptied depot).calls.toList =
      [.release 16 0 true, .release 16 0 true, .release 16 0 true] := by decide +kernel
  obtain ⟨s', depot', run, elements, -, -, -, -, rebuilt⟩ :=
    (reachable_onHeap _).sort_stably live order depot trivial
  obtain ⟨-, root, -⟩ := rebuilt deep
  exact ⟨live, deep, s', depot', run, elements, back, root⟩

end Sequence

end Segmented
