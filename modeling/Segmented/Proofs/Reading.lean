import Segmented.Proofs.Growth
import Segmented.Sequence
import Segmented.Traversal.Walk

/-! When a sequence is valid, and that everything a caller reads off a valid sequence is read off
one list. -/

namespace Segmented

namespace Walk

variable {α : Type}

/-- The elements in front of a walk. -/
def pending (walk : Walk α) : List α :=
  walk.current.toList.drop walk.position ++ walk.ahead.flatMap Buffer.toList

theorem enter_eq (remaining : Nat) (ahead : List (Buffer α)) :
    (enter remaining ahead).1 = (ahead.flatMap Buffer.toList).head? ∧
      (enter remaining ahead).2.pending = (ahead.flatMap Buffer.toList).tail := by
  induction ahead with
  | nil => exact ⟨rfl, rfl⟩
  | cons segment rest ih =>
    unfold enter
    cases items : segment.toList with
    | nil =>
      have none : segment.items[0]? = none := by
        rw [← Array.getElem?_toList]
        exact congrArg (·[0]?) items
      simp only [none, List.flatMap_cons, items, List.nil_append]
      exact ih
    | cons x others =>
      have some : segment.items[0]? = some x := by
        rw [← Array.getElem?_toList]
        exact congrArg (·[0]?) items
      have content : segment.items.toList = x :: others := items
      simp [some, items, pending, content]

/-- A step of a walk takes the first of the elements in front of it. -/
theorem next_eq (walk : Walk α) :
    walk.next.1 = walk.pending.head? ∧ walk.next.2.pending = walk.pending.tail := by
  unfold next
  cases here : walk.current[walk.position]? with
  | none =>
    have passed : walk.current.toList.drop walk.position = [] :=
      List.drop_of_length_le (by simpa using here)
    simp only [pending, passed, List.nil_append]
    exact enter_eq walk.remaining walk.ahead
  | some x =>
    have split : walk.current.toList.drop walk.position =
        x :: walk.current.toList.drop (walk.position + 1) := by
      obtain ⟨inside, found⟩ := Array.getElem?_eq_some_iff.mp here
      rw [List.drop_eq_getElem_cons (by simpa using inside)]
      exact congrArg (· :: _) found
    simp [pending, split]

theorem take_eq (walk : Walk α) (count : Nat) : (walk.take count).1 = walk.pending.take count := by
  have go_eq (count : Nat) (taken : List α) (walk : Walk α) :
      (take.go count taken walk).1 = taken.reverse ++ walk.pending.take count := by
    induction count generalizing taken walk with
    | zero => simp [take.go]
    | succ count ih =>
      obtain ⟨first, rest⟩ := walk.next_eq
      unfold take.go
      cases step : walk.next with
      | mk answer walk' =>
        rw [step] at first rest
        cases pending : walk.pending with
        | nil =>
          obtain rfl : answer = none := first.trans (by rw [pending]; rfl)
          simp
        | cons x others =>
          obtain rfl : answer = some x := first.trans (by rw [pending]; rfl)
          have behind : walk'.pending = others := rest.trans (by rw [pending]; rfl)
          simp [ih, behind]
  exact (go_eq count [] walk).trans (List.nil_append _)

end Walk

namespace StackWalk

variable {α : Type}

/-- Walking down from a height yields the elements below it, the uppermost first. -/
theorem yields_next_eq {source : Sequence α} {xs : List α}
    (reads : ∀ index, source.get? index = xs[index]?) {high : Nat} (inside : high ≤ xs.length) :
    (yields next { source, low := 0, high } high).1 = (xs.take high).reverse := by
  have go_eq (high : Nat) (inside : high ≤ xs.length) (taken : List α) :
      (yields.go next high taken { source, low := 0, high }).1 =
        taken.reverse ++ (xs.take high).reverse := by
    induction high generalizing taken with
    | zero => simp [yields.go]
    | succ high ih =>
      have here : source.get? high = some xs[high] := by
        rw [reads, List.getElem?_eq_getElem inside]
      have step : next { source, low := 0, high := high + 1 } =
          (some xs[high], { source, low := 0, high }) := by
        simp [next, here]
      simp only [yields.go, step, ih (Nat.le_of_succ_le inside)]
      rw [List.take_succ_eq_append_getElem inside, List.reverse_cons, List.reverse_append,
        List.reverse_singleton, List.append_assoc]
  exact (go_eq high inside []).trans (List.nil_append _)

end StackWalk

namespace Sequence

variable {α : Type}

/-- A sequence without a tree is empty. A tree is packed and has as many elements as the sequence
says, and the number kept as the tail is that of its last segment. -/
inductive Valid (s : Sequence α) : Prop
  | empty (root : s.root = none) (length : s.length = 0) (tail : s.tail = none)
  | tree {level : Nat} {tree : Tree α level} {front : List (Buffer α)} {last : Buffer α}
      (root : s.root = some { level, tree })
      (packed : tree.Packed s.options.segmentCapacity front last)
      (length : s.length = tree.toList.length) (tail : s.tail = some front.length)

/-- The capacities that the segments of a sequence hold. -/
def storage (s : Sequence α) : Multiset Nat := rowStorage s.segments.toList

variable {s : Sequence α}

theorem toList_of_root_none (root : s.root = none) : s.toList = [] := by
  simp [toList, toArray, root]

theorem toList_of_root {level : Nat} {tree : Tree α level} (root : s.root = some { level, tree }) :
    s.toList = tree.toList := by
  simp [toList, toArray, root, Tree.toList]

theorem storage_of_root_none (root : s.root = none) : s.storage = 0 := by
  simp [storage, segments, root]

theorem storage_of_root {level : Nat} {tree : Tree α level}
    (root : s.root = some { level, tree }) : s.storage = tree.storage := by
  simp [storage, segments, root, Tree.storage, Tree.row]

theorem segments_eq_row {level : Nat} {tree : Tree α level}
    (root : s.root = some { level, tree }) : s.segments.toList = tree.row := by
  simp [segments, root, Tree.row]

theorem segmentCount_eq_length (s : Sequence α) : s.segmentCount = s.segments.toList.length := by
  unfold segmentCount segments
  split
  · rfl
  · rename_i root _
    exact root.tree.segmentCount_eq_row

theorem flatMap_segments (s : Sequence α) : s.segments.toList.flatMap Buffer.toList = s.toList := by
  unfold segments toList toArray
  split
  · rfl
  · rename_i root _
    exact (Tree.toList_eq_row root.tree).symm

/-- The run of storage of a sequence in one segment has all of its elements. -/
theorem flat?_eq_toArray {items : Array α} (flat : s.flat? = some items) : items = s.toArray := by
  unfold flat? at flat
  unfold toArray
  split at flat <;> cases flat <;> simp_all [Tree.toArray]

theorem pending_walk (s : Sequence α) : s.walk.pending = s.toList := by
  unfold walk
  cases flat : s.flat? with
  | some items =>
    rw [flat?_eq_toArray flat]
    exact List.append_nil _
  | none => exact flatMap_segments s

theorem walk_take_eq (s : Sequence α) (count : Nat) :
    (s.walk.take count).1 = s.toList.take count := by
  rw [Walk.take_eq, pending_walk]

namespace Valid

theorem length_eq (valid : s.Valid) : s.length = s.toList.length := by
  cases valid with
  | empty root length => rw [toList_of_root_none root, length, List.length_nil]
  | tree root packed length => rw [toList_of_root root, length]

theorem filled_segments (valid : s.Valid) :
    ∀ segment ∈ s.segments.toList, segment.Filled s.options.segmentCapacity := by
  cases valid with
  | empty root => simp [segments, root]
  | tree root packed =>
    rw [segments_eq_row root]
    exact packed.filled_row

theorem length_eq_zero_iff (valid : s.Valid) : s.length = 0 ↔ s.root = none := by
  cases valid with
  | empty root length => simp [root, length]
  | tree root packed length =>
    have nonempty := List.length_pos_iff.mpr packed.toList_ne_nil
    simp [root, length, Nat.ne_of_gt nonempty]

theorem get?_eq (valid : s.Valid) (index : Nat) : s.get? index = s.toList[index]? := by
  have length := valid.length_eq
  unfold get?
  split
  · cases valid with
    | empty root => rename_i inside; simp [root, toList_of_root_none root]
    | tree root packed => rw [toList_of_root root, root, ← packed.get?_eq]
  · exact (List.getElem?_eq_none (by omega)).symm

theorem first?_eq (valid : s.Valid) : s.first? = s.toList.head? := by
  rw [first?, valid.get?_eq, List.head?_eq_getElem?]

theorem tailSegment?_eq {level : Nat} {tree : Tree α level} {front : List (Buffer α)}
    {last : Buffer α} (root : s.root = some { level, tree })
    (packed : tree.Packed s.options.segmentCapacity front last)
    (tail : s.tail = some front.length) : s.tailSegment? = some last := by
  simp only [tailSegment?, tail, root, packed.shaped.segment?_eq, packed.parts]
  simp

theorem last?_eq (valid : s.Valid) : s.last? = s.toList.getLast? := by
  cases valid with
  | empty root length tail => simp [last?, tailSegment?, tail, toList_of_root_none root]
  | tree root packed length tail =>
    rename_i front last
    have nonempty : last.toList ≠ [] :=
      List.ne_nil_of_length_pos ((Buffer.length_toList last).symm ▸ packed.filled.positive)
    simp only [last?, tailSegment?_eq root packed tail, toList_of_root root, packed.toList_eq,
      List.getLast?_append_of_ne_nil _ nonempty]
    exact (Array.getLast?_toList last.items).symm

theorem stackWalk_eq (valid : s.Valid) : s.stackWalk.rest = s.toList.reverse := by
  have length := valid.length_eq
  have walked := StackWalk.yields_next_eq valid.get?_eq (Nat.le_of_eq length)
  rwa [length, List.take_length, ← length] at walked

end Valid

end Sequence

end Segmented
