import Mathlib.Algebra.BigOperators.Group.List.Basic
import Segmented.Proofs.CheckedTraversal
import Segmented.Proofs.Enumeration
import Segmented.Proofs.WellFormed

/-! Traversals that leave a sequence as it is: over its elements, and over its segments. One that
goes down the tree with a stack of the siblings ahead yields the same as one that has all segments
ahead of it. -/

namespace Segmented

variable {α : Type}

/-! ### With all segments ahead -/

theorem Walk.advances : Advances (Walk.next (α := α)) Walk.pending where
  answer walk := walk.next_eq.1
  rest walk := walk.next_eq.2

/-! ### Down a tree -/

namespace Tree

variable {level : Nat}

/-- The trees one level down. -/
def children (tree : Tree α (level + 1)) : List (Tree α level) := Array.toList tree

theorem row_children (tree : Tree α (level + 1)) : tree.row = tree.children.flatMap row :=
  row_branch tree

/-- How many steps a descent takes through a tree: one for a segment, two for a branch, which is
entered and left. -/
def weight : {level : Nat} → Tree α level → Nat
  | 0, _ => 1
  | _ + 1, tree => 2 + (tree.children.map weight).sum

end Tree

/-- The siblings on one level that are still ahead. -/
structure Frame (α : Type) where
  level : Nat
  ahead : List (Tree α level)

/-- The frames of a descent into a tree, the lowest first. -/
abbrev Descent (α : Type) := List (Frame α)

namespace Descent

/-- How many steps a descent has ahead of it. -/
def weight (descent : Descent α) : Nat :=
  (descent.map fun frame => 1 + (frame.ahead.map Tree.weight).sum).sum

/-- The next segment: a frame without siblings is left, and a branch is entered. -/
def next : Descent α → Option (Buffer α) × Descent α
  | [] => (none, [])
  | { ahead := [], .. } :: above => next above
  | { level := 0, ahead := segment :: siblings } :: above =>
    (some segment, { level := 0, ahead := siblings } :: above)
  | { level := level + 1, ahead := branch :: siblings } :: above =>
    next ({ level, ahead := branch.children } ::
      { level := level + 1, ahead := siblings } :: above)
termination_by descent => weight descent
decreasing_by
  · simp [weight]
  · have entered : branch.weight = 2 + (branch.children.map Tree.weight).sum := rfl
    simp only [weight, List.map_cons, List.sum_cons]
    omega

/-- The segments below the frames. -/
def ahead (descent : Descent α) : List (Buffer α) :=
  descent.flatMap fun frame => frame.ahead.flatMap Tree.row

theorem advances : Advances (next (α := α)) ahead := by
  have step (descent : Descent α) : descent.next.1 = descent.ahead.head? ∧
      descent.next.2.ahead = descent.ahead.tail := by
    induction descent using next.induct with
    | case1 =>
      rw [next]
      exact ⟨rfl, rfl⟩
    | case2 level above ih =>
      rw [next]
      exact ih
    | case3 segment siblings above =>
      rw [next]
      exact ⟨rfl, rfl⟩
    | case4 level branch siblings above ih =>
      rw [next]
      have same : ahead ({ level, ahead := branch.children } ::
          { level := level + 1, ahead := siblings } :: above) =
          ahead ({ level := level + 1, ahead := branch :: siblings } :: above) := by
        simp [ahead, Tree.row_children]
      rwa [← same]
  exact ⟨fun descent => (step descent).1, fun descent => (step descent).2⟩

end Descent

/-! ### Elements on the way down -/

/-- A walk that comes by its segments in a descent. -/
structure Tour (α : Type) where
  segments : Descent α := []
  current : Array α := #[]
  position : Nat := 0
  remaining : Nat := 0

namespace Tour

/-- The first element of the next segment that has one. -/
def nextSegment (tour : Tour α) : Option α × Tour α :=
  match _step : tour.segments.next with
  | (none, segments) => (none, { tour with segments })
  | (some segment, segments) =>
    match segment.items[0]? with
    | some x =>
      (some x, { segments, current := segment.items, position := 1,
                 remaining := tour.remaining - 1 })
    | none => nextSegment { tour with segments, current := segment.items, position := 0 }
termination_by tour.segments.ahead.length
decreasing_by
  rw [Descent.advances.ahead_of_some _step]
  exact Nat.lt_succ_self _

/-- The next element, if there is one. -/
def next (tour : Tour α) : Option α × Tour α :=
  match tour.current[tour.position]? with
  | some x =>
    (some x, { tour with position := tour.position + 1, remaining := tour.remaining - 1 })
  | none => tour.nextSegment

/-- The elements in front of a tour. -/
def ahead (tour : Tour α) : List α :=
  tour.current.toList.drop tour.position ++ tour.segments.ahead.flatMap Buffer.toList

theorem ahead_of_passed {tour : Tour α} (passed : tour.current.size ≤ tour.position) :
    tour.ahead = tour.segments.ahead.flatMap Buffer.toList := by
  rw [ahead, List.drop_of_length_le (Array.length_toList ▸ passed), List.nil_append]

theorem ahead_of_some {tour : Tour α} {x : α} (here : tour.current[tour.position]? = some x) :
    tour.ahead = x :: { tour with position := tour.position + 1 }.ahead := by
  obtain ⟨inside, found⟩ := Array.getElem?_eq_some_iff.mp here
  have bound : tour.position < tour.current.toList.length := inside
  rw [ahead, ahead, List.drop_eq_getElem_cons bound, Array.getElem_toList, found]
  rfl

theorem nextSegment_of_none {tour : Tour α} {segments : Descent α}
    (step : tour.segments.next = (none, segments)) :
    tour.nextSegment = (none, { tour with segments }) := by
  unfold nextSegment
  split
  · rename_i step'
    cases step.symm.trans step'
    rfl
  · rename_i step'
    cases step.symm.trans step'

theorem nextSegment_of_some {tour : Tour α} {segment : Buffer α} {segments : Descent α}
    (step : tour.segments.next = (some segment, segments)) :
    tour.nextSegment = match segment.items[0]? with
      | some x => (some x, { segments, current := segment.items, position := 1,
                             remaining := tour.remaining - 1 })
      | none => nextSegment { tour with segments, current := segment.items, position := 0 } := by
  conv_lhs => unfold nextSegment
  split
  · rename_i step'
    cases step.symm.trans step'
  · rename_i step'
    cases step.symm.trans step'
    rfl

/-- A tour at the end of a segment goes on in the next one that has an element. -/
theorem nextSegment_eq {tour : Tour α} (passed : tour.current.size ≤ tour.position) :
    tour.nextSegment.1 = tour.ahead.head? ∧ tour.nextSegment.2.ahead = tour.ahead.tail ∧
      (tour.remaining = tour.ahead.length →
        tour.nextSegment.2.remaining = tour.nextSegment.2.ahead.length) := by
  induction tour using nextSegment.induct with
  | case1 tour segments step =>
    obtain ⟨none, none'⟩ := Descent.advances.ahead_of_none step
    have before : tour.ahead = [] := by rw [ahead_of_passed passed, none, List.flatMap_nil]
    have after : ahead { tour with segments } = [] := by
      have same : ahead { tour with segments } = segments.ahead.flatMap Buffer.toList :=
        ahead_of_passed passed
      rw [same, none', List.flatMap_nil]
    rw [nextSegment_of_none step, before]
    exact ⟨rfl, after, fun counts => counts.trans (congrArg List.length after).symm⟩
  | case2 tour segment segments step x here =>
    have entered := ahead_of_passed passed
    rw [Descent.advances.ahead_of_some step, List.flatMap_cons] at entered
    have before : tour.ahead =
        ahead { tour with segments, current := segment.items, position := 0 } := entered
    rw [nextSegment_of_some step, before, ahead_of_some here]
    simp only [here]
    refine ⟨rfl, rfl, fun counts => ?_⟩
    rw [counts]
    rfl
  | case3 tour segment segments step none ih =>
    have entered := ahead_of_passed passed
    rw [Descent.advances.ahead_of_some step, List.flatMap_cons] at entered
    have before : tour.ahead =
        ahead { tour with segments, current := segment.items, position := 0 } := entered
    have vacant : segment.items.size ≤ 0 := by simpa using none
    rw [nextSegment_of_some step, before]
    simp only [none]
    exact ih vacant

theorem next_eq (tour : Tour α) :
    tour.next.1 = tour.ahead.head? ∧ tour.next.2.ahead = tour.ahead.tail ∧
      (tour.remaining = tour.ahead.length → tour.next.2.remaining = tour.next.2.ahead.length) := by
  unfold next
  cases here : tour.current[tour.position]? with
  | none => exact nextSegment_eq (by simpa using here)
  | some x =>
    rw [ahead_of_some here]
    refine ⟨rfl, rfl, fun counts => ?_⟩
    dsimp only
    rw [counts]
    rfl

theorem advances : Advances (next (α := α)) ahead where
  answer tour := tour.next_eq.1
  rest tour := tour.next_eq.2.1

end Tour

namespace Sequence

variable {s : Sequence α}

/-- A descent from the root. -/
def descent (s : Sequence α) : Descent α :=
  match s.root with
  | none => []
  | some { level, tree } => [{ level, ahead := [tree] }]

/-- A tour from the first element on; one segment is taken as it is, without a descent. -/
def tour (s : Sequence α) : Tour α :=
  match s.flat? with
  | some items => { current := items, remaining := s.length }
  | none => { segments := s.descent, remaining := s.length }

theorem ahead_descent (s : Sequence α) : s.descent.ahead = s.segments.toList := by
  unfold descent segments
  cases s.root <;> simp [Descent.ahead, Tree.row]

theorem ahead_tour (s : Sequence α) : s.tour.ahead = s.toList := by
  unfold tour
  cases flat : s.flat? with
  | some items =>
    rw [flat?_eq_toArray flat]
    exact List.append_nil _
  | none =>
    refine Eq.trans ?_ (flatMap_segments s)
    rw [← ahead_descent]
    rfl

theorem Valid.enumerates_walk (valid : s.Valid) :
    Enumerates Walk.next Walk.remaining s.walk s.toList := by
  have start : s.walk.Counts := (Walk.Of.start (s := s)).counts valid
  rw [← pending_walk]
  exact Walk.advances.enumerates (fun _ counts => (Walk.Counts.checkedNext_eq counts).2) start

theorem Valid.enumerates_tour (valid : s.Valid) :
    Enumerates Tour.next Tour.remaining s.tour s.toList := by
  have start : s.tour.remaining = s.tour.ahead.length := by
    rw [ahead_tour, ← valid.length_eq]
    unfold tour
    split <;> rfl
  rw [← ahead_tour]
  exact Tour.advances.enumerates (fun tour => tour.next_eq.2.2) start

variable [BEq α] [Inhabited α]

/-- Whatever operations a sequence comes from, its elements are enumerated in order with a right
count of those to come, with all segments ahead as in a descent with a stack. The segments are
enumerated too: none is empty, all but the last are full, and joined they are the whole. -/
theorem Reachable.enumerated (reachable : s.Reachable) :
    Enumerates Walk.next Walk.remaining s.walk s.toList ∧
      Enumerates Tour.next Tour.remaining s.tour s.toList ∧ s.toList.length = s.length ∧
      (∀ count, (answers (m := Id) Descent.next count s.descent).1 =
        yielded s.segments.toList count) ∧
      (∀ segment ∈ s.segments.toList, 0 < segment.size) ∧
      (∀ segment ∈ s.segments.toList.dropLast, segment.size = s.options.segmentCapacity) ∧
      s.segments.toList.flatMap Buffer.toList = s.toList := by
  have valid := reachable.valid
  refine ⟨valid.enumerates_walk, valid.enumerates_tour, valid.length_eq.symm, fun count => ?_,
    fun segment member => (valid.filled_segments segment member).positive,
    reachable.wellFormed.full, flatMap_segments s⟩
  rw [(Descent.advances.answers_eq count s.descent).1, ahead_descent]

/-- After eighteen of twenty elements two are to come, of another segment than the first sixteen. -/
theorem enumerated_of_twenty :
    let s : Sequence Nat := onHeap [.extend (List.range 20)]
    let here := (answers (m := Id) Tour.next 18 s.tour).2
    here.remaining = 2 ∧
      (answers (m := Id) Tour.next 3 here).1 = [some 18, some 19, none] := by
  intro s here
  have elements : s.toList = List.range 20 := by decide +kernel
  obtain ⟨-, toured, -⟩ := (reachable_onHeap _).enumerated (s := s)
  have remaining := toured.remaining 18
  have rest := toured.rest 18 3
  rw [elements] at remaining rest
  exact ⟨remaining, rest⟩

end Sequence

end Segmented
