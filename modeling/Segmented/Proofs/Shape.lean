import Segmented.Proofs.Runs
import Segmented.Tree.Append

/-! The shape of a tree and its row of segments. All branches but those on the way to the last
segment are complete, so the number of a segment is a path to it. -/

namespace Segmented.Tree

variable {α : Type} {level : Nat}

/-- The segments as a list. -/
def row (tree : Tree α level) : List (Buffer α) := tree.segments.toList

@[simp] theorem row_segment (buffer : Buffer α) : @row α 0 buffer = [buffer] := rfl

theorem eq_of_row_segment {segment : Tree α 0} {front : List (Buffer α)} {last : Buffer α}
    (parts : segment.row = front ++ [last]) : front = [] ∧ last = segment := by
  obtain ⟨none, ends⟩ := List.append_inj' (parts.symm.trans (List.nil_append _).symm) rfl
  exact ⟨none, List.singleton_inj.mp ends⟩

theorem row_branch (children : Array (Tree α level)) :
    @row α (level + 1) children = children.toList.flatMap row := by
  simp only [row, segments, Array.toList_flatMap]
  rfl

@[simp] theorem isEmpty_branch (children : Array (Tree α level)) :
    @isEmpty α (level + 1) children = children.isEmpty := rfl

theorem row_push (before : Array (Tree α level)) (last : Tree α level) :
    @row α (level + 1) (before.push last) = before.toList.flatMap row ++ last.row := by
  simp [row_branch]

theorem toList_branch (children : Array (Tree α level)) :
    @toList α (level + 1) children = children.toList.flatMap toList := by
  simp only [toList, toArray, Array.toList_flatMap]
  rfl

theorem toList_push (before : Array (Tree α level)) (last : Tree α level) :
    @toList α (level + 1) (before.push last) =
      before.toList.flatMap toList ++ last.toList := by
  simp [toList_branch]

theorem toList_eq_row (tree : Tree α level) : tree.toList = tree.row.flatMap Buffer.toList := by
  induction level with
  | zero => exact (List.append_nil _).symm
  | succ level ih =>
    change Array (Tree α level) at tree
    rw [toList_branch, row_branch, List.flatMap_assoc]
    exact congrArg (List.flatMap · tree.toList) (funext ih)

theorem toList_of_row {tree : Tree α level} {row : List (Buffer α)} (parts : tree.row = row) :
    tree.toList = row.flatMap Buffer.toList :=
  parts ▸ toList_eq_row tree

theorem flatMap_row_flatMap (trees : List (Tree α level)) :
    (trees.flatMap row).flatMap Buffer.toList = trees.flatMap toList := by
  rw [List.flatMap_assoc]
  exact congrArg (List.flatMap · trees) (funext fun tree => (toList_eq_row tree).symm)

theorem segmentCount_eq_row (tree : Tree α level) : tree.segmentCount = tree.row.length := by
  induction level with
  | zero => rfl
  | succ level ih =>
    have counts (children : List (Tree α level)) (count : Nat) :
        children.foldl (fun count child => count + child.segmentCount) count =
          count + (children.flatMap row).length := by
      induction children generalizing count with
      | nil => rfl
      | cons child rest tail => simp [tail, ih child, Nat.add_assoc]
    change Array (Tree α level) at tree
    rw [row_branch, segmentCount, ← Array.foldl_toList, counts, Nat.zero_add]

/-- Every branch has at least one child and at most its fanout, and every child but the last has
all the segments that its level allows. -/
def Shaped : {level : Nat} → Tree α level → Prop
  | 0, _ => True
  | level + 1, (children : Array (Tree α level)) =>
    ∃ (before : Array (Tree α level)) (last : Tree α level), children = before.push last ∧
      before.size < fanout ∧ (∀ child ∈ before, Shaped child ∧ child.row.length = leaves level) ∧
      Shaped last

theorem leaves_pos (level : Nat) : 0 < leaves level := by
  induction level with
  | zero => exact Nat.one_pos
  | succ level ih => exact Nat.mul_pos (by decide) ih

theorem length_row_of_complete {before : Array (Tree α level)}
    (complete : ∀ child ∈ before, child.Shaped ∧ child.row.length = leaves level) :
    (before.toList.flatMap row).length = before.size * leaves level := by
  rw [← Array.length_toList]
  exact length_flatMap_of_width fun child member =>
    (complete child (Array.mem_toList_iff.mp member)).2

theorem Shaped.length_pos {tree : Tree α level} (shaped : tree.Shaped) : 0 < tree.row.length := by
  induction level with
  | zero => exact Nat.one_pos
  | succ level ih =>
    obtain ⟨before, last, rfl, -, -, inner⟩ := shaped
    rw [row_push, List.length_append]
    exact Nat.add_pos_right _ (ih inner)

theorem Shaped.length_le {tree : Tree α level} (shaped : tree.Shaped) :
    tree.row.length ≤ leaves level := by
  induction level with
  | zero => exact Nat.le_refl 1
  | succ level ih =>
    obtain ⟨before, last, rfl, few, complete, inner⟩ := shaped
    have width := length_row_of_complete complete
    have bound := ih inner
    have most : (before.size + 1) * leaves level ≤ fanout * leaves level :=
      Nat.mul_le_mul_right _ few
    rw [row_push, List.length_append, width, leaves]
    rw [Nat.succ_mul] at most
    omega

theorem Shaped.exists_last {tree : Tree α level} (shaped : tree.Shaped) :
    ∃ front last, tree.row = front ++ [last] := by
  have nonempty : tree.row ≠ [] := List.ne_nil_of_length_pos shaped.length_pos
  exact ⟨_, _, (List.dropLast_concat_getLast nonempty).symm⟩

/-- The last segment of a branch is that of its last child. -/
theorem Shaped.exists_front {before : Array (Tree α level)} {child : Tree α level}
    {front : List (Buffer α)} {last : Buffer α} (shaped : child.Shaped)
    (parts : @row α (level + 1) (before.push child) = front ++ [last]) :
    ∃ inner, child.row = inner ++ [last] ∧ front = before.toList.flatMap row ++ inner := by
  obtain ⟨inner, final, split⟩ := shaped.exists_last
  rw [row_push, split, ← List.append_assoc] at parts
  obtain ⟨same, ends⟩ := List.append_inj' parts rfl
  cases ends
  exact ⟨inner, split, same.symm⟩

/-! ### Numbers of segments -/

/-- A segment is found by its number. -/
theorem Shaped.segment?_eq {tree : Tree α level} (shaped : tree.Shaped) (number : Nat) :
    tree.segment? number = tree.row[number]? := by
  induction level generalizing number with
  | zero => cases number <;> rfl
  | succ level ih =>
    obtain ⟨before, last, rfl, -, complete, inner⟩ := shaped
    have width : ∀ child ∈ before.toList, child.row.length = leaves level :=
      fun child member => (complete child (Array.mem_toList_iff.mp member)).2
    rw [segment?, row_push, getElem?_flatMap_of_width (leaves_pos level) width,
      Array.getElem?_push, Array.length_toList, Array.getElem?_toList]
    by_cases here : number / leaves level < before.size
    · rw [if_neg (by omega), Array.getElem?_eq_getElem here]
      exact ih (complete _ (Array.getElem_mem here)).1 _
    · rw [Array.getElem?_eq_none (by omega)]
      have path := Nat.mod_def number (leaves level)
      by_cases next : number / leaves level = before.size
      · rw [next, Nat.mul_comm] at path
        simp only [next, if_true]
        rw [ih inner, path]
      · have beyond : (before.size + 1) * leaves level ≤ number :=
          (Nat.le_div_iff_mul_le (leaves_pos level)).mp (by omega)
        have bound := inner.length_le
        rw [Nat.succ_mul] at beyond
        simp only [next, if_false]
        exact (List.getElem?_eq_none (by omega)).symm

/-- The number kept for the tail is that of the last segment. -/
theorem Shaped.lastNumber?_eq {tree : Tree α level} (shaped : tree.Shaped) :
    tree.lastNumber? = some (tree.row.length - 1) := by
  induction level with
  | zero => rfl
  | succ level ih =>
    obtain ⟨before, last, rfl, -, complete, inner⟩ := shaped
    have width := length_row_of_complete complete
    have positive := inner.length_pos
    simp only [lastNumber?, Array.back?_push, ih inner, row_push, List.length_append, width,
      Option.map_some, Array.size_push, Nat.add_sub_cancel]
    exact congrArg some (Nat.add_sub_assoc positive _).symm

/-! ### Changes at the last segment -/

/-- Replaces the last segment. -/
def setLast (buffer : Buffer α) : {level : Nat} → Tree α level → Tree α level
  | 0, _ => buffer
  | _ + 1, (children : Array (Tree α _)) =>
    match splitLast? children with
    | none => #[]
    | some (before, child) => before.push (setLast buffer child)

/-- Replaces the last segment, or drops it and what holds nothing else if the replacement is
empty. -/
def trimLast (buffer : Buffer α) : {level : Nat} → Tree α level → Tree α level
  | 0, _ => buffer
  | _ + 1, (children : Array (Tree α _)) =>
    match splitLast? children with
    | none => #[]
    | some (before, child) =>
      let child := trimLast buffer child
      let children : Array (Tree α _) := if child.isEmpty then before else before.push child
      children

/-- Adds a segment behind the last one; where there is no room for it, as a tree of its own. -/
def grow (buffer : Buffer α) : {level : Nat} → Tree α level → Tree α level × Option (Tree α level)
  | 0, (last : Buffer α) => (last, some buffer)
  | _ + 1, (children : Array (Tree α _)) =>
    match splitLast? children with
    | none => (#[], none)
    | some (before, child) =>
      let (child, sibling) := grow buffer child
      adopt (before.push child) sibling

/-- A branch of a shaped tree whose last child is replaced by a shaped one. -/
theorem Shaped.push {before : Array (Tree α level)} {last : Tree α level}
    (few : before.size < fanout)
    (complete : ∀ child ∈ before, child.Shaped ∧ child.row.length = leaves level)
    (inner : last.Shaped) : @Shaped α (level + 1) (before.push last) :=
  ⟨before, last, rfl, few, complete, inner⟩

theorem Shaped.setLast {tree : Tree α level} (shaped : tree.Shaped) {front : List (Buffer α)}
    {last : Buffer α} (parts : tree.row = front ++ [last]) (buffer : Buffer α) :
    (tree.setLast buffer).Shaped ∧ (tree.setLast buffer).row = front ++ [buffer] := by
  induction level generalizing front with
  | zero =>
    obtain ⟨rfl, -⟩ := eq_of_row_segment parts
    exact ⟨trivial, rfl⟩
  | succ level ih =>
    obtain ⟨before, child, rfl, few, complete, inner⟩ := shaped
    obtain ⟨innerFront, split, rfl⟩ := inner.exists_front parts
    obtain ⟨shaped', row'⟩ := ih inner split
    simp only [Tree.setLast, splitLast?_push]
    refine ⟨.push few complete shaped', ?_⟩
    rw [row_push, row', List.append_assoc]

theorem Shaped.trimLast_of_nonempty {tree : Tree α level} (shaped : tree.Shaped)
    {buffer : Buffer α} (nonempty : buffer.isEmpty = false) :
    tree.trimLast buffer = tree.setLast buffer ∧ (tree.setLast buffer).isEmpty = false := by
  induction level with
  | zero => exact ⟨rfl, nonempty⟩
  | succ level ih =>
    obtain ⟨before, child, rfl, few, complete, inner⟩ := shaped
    obtain ⟨same, kept⟩ := ih inner
    simp only [Tree.setLast, Tree.trimLast, splitLast?_push, same, kept, Bool.false_eq_true,
      if_false, isEmpty_branch]
    exact ⟨rfl, by simp⟩

/-- A row of complete trees is a branch, unless it is empty. -/
theorem Shaped.of_complete {children : Array (Tree α level)} (few : children.size ≤ fanout)
    (nonempty : children ≠ #[])
    (complete : ∀ child ∈ children, child.Shaped ∧ child.row.length = leaves level) :
    @Shaped α (level + 1) children := by
  obtain ⟨before, last, rfl⟩ := Array.eq_push_of_size_ne_zero
    (fun zero => nonempty (Array.eq_empty_of_size_eq_zero zero))
  rw [Array.size_push] at few
  exact .push few (fun child member => complete child (by simp [member]))
    (complete last (by simp)).1

/-- Without its last segment a shaped tree is shaped, or there is nothing left of it. -/
theorem Shaped.trimLast_of_empty {tree : Tree α level} (shaped : tree.Shaped)
    {front : List (Buffer α)} {last : Buffer α} (parts : tree.row = front ++ [last])
    {buffer : Buffer α} (empty : buffer.isEmpty = true) :
    (tree.trimLast buffer).isEmpty = front.isEmpty ∧
      (front ≠ [] → (tree.trimLast buffer).Shaped ∧ (tree.trimLast buffer).row = front) := by
  induction level generalizing front with
  | zero =>
    obtain ⟨rfl, -⟩ := eq_of_row_segment parts
    exact ⟨empty, fun nonempty => absurd rfl nonempty⟩
  | succ level ih =>
    obtain ⟨before, child, rfl, few, complete, inner⟩ := shaped
    obtain ⟨innerFront, split, rfl⟩ := inner.exists_front parts
    obtain ⟨vanishes, remains⟩ := ih inner split
    cases innerFront with
    | nil =>
      simp only [Tree.trimLast, splitLast?_push, vanishes, List.isEmpty_nil, if_true,
        List.append_nil, isEmpty_branch]
      constructor
      · have width := length_row_of_complete complete
        have positive := leaves_pos level
        rw [Bool.eq_iff_iff, Array.isEmpty_iff, List.isEmpty_iff, ← List.length_eq_zero_iff, width,
          Nat.mul_eq_zero, or_iff_left (Nat.ne_of_gt positive), Array.size_eq_zero_iff]
      · intro nonempty
        refine ⟨.of_complete (Nat.le_of_lt few) ?_ complete, row_branch before⟩
        rintro rfl
        exact nonempty rfl
    | cons first rest =>
      obtain ⟨shaped', row'⟩ := remains (by simp)
      simp only [Tree.trimLast, splitLast?_push, vanishes, List.isEmpty_cons, Bool.false_eq_true,
        if_false, isEmpty_branch]
      constructor
      · simp
      · intro _
        refine ⟨.push few complete shaped', ?_⟩
        rw [row_push, row']

/-- A new segment goes behind the last one as long as the level allows another. -/
theorem Shaped.grow {tree : Tree α level} (shaped : tree.Shaped) (buffer : Buffer α) :
    if tree.row.length < leaves level then
      (tree.grow buffer).2 = none ∧ (tree.grow buffer).1.Shaped ∧
        (tree.grow buffer).1.row = tree.row ++ [buffer]
    else
      (tree.grow buffer).1 = tree ∧ ∃ sibling, (tree.grow buffer).2 = some sibling ∧
        sibling.Shaped ∧ sibling.row = [buffer] := by
  induction level with
  | zero =>
    rw [if_neg (by simp [row, segments, leaves])]
    exact ⟨rfl, buffer, rfl, trivial, rfl⟩
  | succ level ih =>
    obtain ⟨before, child, rfl, few, complete, inner⟩ := shaped
    have width := length_row_of_complete complete
    have step := ih inner
    have bound := inner.length_le
    have total : @row α (level + 1) (before.push child) =
        before.toList.flatMap row ++ child.row := row_push before child
    simp only [Tree.grow, splitLast?_push, total, List.length_append, width, leaves]
    by_cases room : child.row.length < leaves level
    · -- The last child takes the segment in.
      rw [if_pos room] at step
      obtain ⟨none, shaped', row'⟩ := step
      have most : (before.size + 1) * leaves level ≤ fanout * leaves level :=
        Nat.mul_le_mul_right _ few
      rw [Nat.succ_mul] at most
      rw [if_pos (by omega), none]
      simp only [adopt]
      refine ⟨trivial, .push few complete shaped', ?_⟩
      rw [row_push, row', List.append_assoc]
    · rw [if_neg room] at step
      obtain ⟨same, sibling, opened, shaped', row'⟩ := step
      have full : child.row.length = leaves level := by omega
      rw [same, opened, full, ← Nat.succ_mul]
      simp only [adopt, Array.size_push]
      by_cases space : before.size + 1 < fanout
      · -- The branch takes a new child in.
        have within : (before.size + 1) * leaves level < fanout * leaves level :=
          Nat.mul_lt_mul_of_pos_right space (leaves_pos level)
        rw [if_pos within]
        simp only [space, if_true]
        refine ⟨trivial, .push (by simpa using space) ?_ shaped', ?_⟩
        · intro other member
          rcases Array.mem_push.mp member with old | rfl
          · exact complete other old
          · exact ⟨inner, full⟩
        · rw [row_push, row', ← total, row_branch]
      · -- The branch is full, and the new child gets a branch of its own.
        have closed : before.size + 1 = fanout := by omega
        have beyond : ¬ (before.size + 1) * leaves level < fanout * leaves level := by
          rw [closed]
          exact Nat.lt_irrefl _
        rw [if_neg beyond]
        simp only [space, if_false]
        refine ⟨rfl, (#[sibling] : Array (Tree α level)), rfl, ?_, ?_⟩
        · exact ⟨#[], sibling, rfl, by simp [fanout], by simp, shaped'⟩
        · rw [row_branch]
          simpa using row'

/-- A change of the segment with the last number is a change of the last segment. -/
theorem Shaped.updateSegment_last {m : Type → Type} [Monad m] [LawfulMonad m]
    {tree : Tree α level} (shaped : tree.Shaped) {front : List (Buffer α)} {last : Buffer α}
    (parts : tree.row = front ++ [last]) (change : Buffer α → m (Buffer α)) :
    tree.updateSegment change front.length = do
      let buffer ← change last
      return tree.setLast buffer := by
  induction level generalizing front with
  | zero =>
    obtain ⟨rfl, rfl⟩ := eq_of_row_segment parts
    exact (bind_pure _).symm
  | succ level ih =>
    obtain ⟨before, child, rfl, few, complete, inner⟩ := shaped
    obtain ⟨innerFront, split, rfl⟩ := inner.exists_front parts
    have width := length_row_of_complete complete
    have short : innerFront.length < leaves level := by
      have bound := inner.length_le
      rw [split, List.length_append, List.length_singleton] at bound
      exact bound
    have path : (before.toList.flatMap row ++ innerFront).length / leaves level = before.size := by
      rw [List.length_append, width, Nat.mul_comm, Nat.mul_add_div (leaves_pos level),
        Nat.div_eq_of_lt short, Nat.add_zero]
    have rest : (before.toList.flatMap row ++ innerFront).length % leaves level =
        innerFront.length := by
      rw [List.length_append, width, Nat.mul_comm, Nat.mul_add_mod, Nat.mod_eq_of_lt short]
    simp only [updateSegment, path, rest, Array.modifyM, Array.size_push, Nat.lt_succ_self,
      dite_true, Array.getElem_push_eq, ih inner split, bind_assoc, pure_bind, Tree.setLast,
      splitLast?_push]
    have stored (buffer : Buffer α) (inside : before.size < (before.push child).size) :
        (before.push child).set before.size (child.setLast buffer) inside =
          before.push (child.setLast buffer) := by
      simp [Array.set_push]
    exact bind_congr fun buffer => congrArg pure (stored buffer _)

end Segmented.Tree
