import Mathlib.Tactic.Ring
import Segmented.Proofs.Segment
import Segmented.Proofs.Shape

/-! Trees in which every segment but the last is full. There the quotient of a position by the
segment capacity is the number of a segment, and changes that leave the size of every segment as
it is are changes of one list. -/

namespace Segmented

variable {α : Type}

namespace Tree

variable {level capacity : Nat} {tree : Tree α level} {front : List (Buffer α)} {last : Buffer α}

/-- The segments of the tree are those in front, all of them full, and a last one. -/
structure Packed (capacity : Nat) (tree : Tree α level) (front : List (Buffer α))
    (last : Buffer α) : Prop where
  shaped : tree.Shaped
  parts : tree.row = front ++ [last]
  full : ∀ segment ∈ front, segment.Full capacity
  filled : last.Filled capacity

namespace Packed

theorem toList_eq (packed : tree.Packed capacity front last) :
    tree.toList = front.flatMap Buffer.toList ++ last.toList := by
  simp [toList_eq_row, packed.parts]

theorem width (packed : tree.Packed capacity front last) :
    ∀ segment ∈ front, segment.toList.length = capacity := fun segment member =>
  (Buffer.length_toList segment).trans (packed.full segment member).size

theorem length_front (packed : tree.Packed capacity front last) :
    (front.flatMap Buffer.toList).length = front.length * capacity :=
  length_flatMap_of_width packed.width

theorem length_eq (packed : tree.Packed capacity front last) :
    tree.toList.length = front.length * capacity + last.size := by
  rw [packed.toList_eq, List.length_append, packed.length_front, Buffer.length_toList]

theorem capacity_pos (packed : tree.Packed capacity front last) : 0 < capacity :=
  Nat.lt_of_lt_of_le packed.filled.positive packed.filled.bounded

theorem filled_row (packed : tree.Packed capacity front last) :
    ∀ segment ∈ tree.row, segment.Filled capacity := by
  intro segment member
  rw [packed.parts] at member
  rcases List.mem_append.mp member with inFront | atEnd
  · exact (packed.full segment inFront).filled packed.capacity_pos
  · exact List.mem_singleton.mp atEnd ▸ packed.filled

end Packed

/-- A shaped tree is packed once all segments in front of the last are full. -/
theorem Shaped.packed (shaped : tree.Shaped) (parts : tree.row = front ++ [last])
    (full : ∀ segment ∈ front, segment.Full capacity) (filled : last.Filled capacity) :
    tree.Packed capacity front last :=
  ⟨shaped, parts, full, filled⟩

/-! ### Positions -/

theorem span_eq (capacity level : Nat) : span capacity level = capacity * leaves level := by
  induction level with
  | zero => exact (Nat.mul_one _).symm
  | succ level ih => rw [span, ih, leaves, Nat.mul_left_comm]

theorem Packed.toList_ne_nil (packed : tree.Packed capacity front last) : tree.toList ≠ [] := by
  have length := packed.length_eq
  have positive := packed.filled.positive
  exact List.ne_nil_of_length_pos (by omega)

theorem Packed.length_le_span (packed : tree.Packed capacity front last) :
    tree.toList.length ≤ span capacity level := by
  have number := packed.shaped.length_le
  rw [packed.parts, List.length_append, List.length_singleton] at number
  have bound := Nat.mul_le_mul_right capacity number
  have filled := packed.filled.bounded
  rw [Nat.succ_mul] at bound
  rw [packed.length_eq, span_eq, Nat.mul_comm capacity]
  omega

theorem mem_row_branch {children : Array (Tree α level)} {child : Tree α level}
    {segment : Buffer α} (member : child ∈ children) (inside : segment ∈ child.row) :
    segment ∈ @row α (level + 1) children := by
  rw [row_branch]
  exact List.mem_flatMap.mpr ⟨child, Array.mem_toList_iff.mpr member, inside⟩

/-- A position is a segment's number and a place in the segment. -/
theorem get?_eq_segment? (positive : 0 < capacity)
    (bounded : ∀ segment ∈ tree.row, segment.size ≤ capacity) (index : Nat) :
    tree.get? capacity index =
      (tree.segment? (index / capacity)).bind (·.items[index % capacity]?) := by
  induction level generalizing index with
  | zero =>
    change Buffer α at tree
    have bound : tree.size ≤ capacity := bounded tree (List.mem_singleton.mpr rfl)
    simp only [get?, segment?]
    by_cases inside : index < capacity
    · simp [Nat.div_eq_of_lt inside, Nat.mod_eq_of_lt inside]
    · have quotient : index / capacity ≠ 0 := Nat.div_ne_zero_iff.mpr ⟨by omega, by omega⟩
      rw [if_neg quotient, Option.bind_none]
      exact Array.getElem?_eq_none (Nat.le_trans bound (Nat.not_lt.mp inside))
  | succ level ih =>
    change Array (Tree α level) at tree
    simp only [get?, segment?, span_eq, Nat.div_div_eq_div_mul]
    cases found : tree[index / (capacity * leaves level)]? with
    | none => rfl
    | some child =>
      have inner : ∀ segment ∈ child.row, segment.size ≤ capacity := fun segment member =>
        bounded segment (mem_row_branch (Array.mem_of_getElem? found) member)
      simp only [ih inner, Nat.mod_mul_right_div_self, Nat.mod_mul_right_mod]

theorem Packed.getElem?_eq (packed : tree.Packed capacity front last) (index : Nat) :
    tree.toList[index]? = (tree.row[index / capacity]?).bind (·.items[index % capacity]?) := by
  have positive := packed.capacity_pos
  rw [packed.toList_eq, packed.parts, getElem?_flatMap_of_width positive packed.width]
  have place := Nat.mod_def index capacity
  by_cases here : index / capacity < front.length
  · rw [List.getElem?_append_left here, List.getElem?_eq_getElem here]
    simp [Buffer.toList]
  · rw [List.getElem?_append_right (by omega), List.getElem?_eq_none (by omega)]
    by_cases atEnd : index / capacity = front.length
    · rw [atEnd, Nat.mul_comm] at place
      simp [atEnd, place, Buffer.toList]
    · have beyond : (front.length + 1) * capacity ≤ index :=
        (Nat.le_div_iff_mul_le positive).mp (by omega)
      have bound := packed.filled.bounded
      rw [Nat.succ_mul] at beyond
      rw [List.getElem?_eq_none (l := [last]) (by simp; omega), Option.bind_none,
        List.getElem?_eq_none (by rw [Buffer.length_toList]; omega)]

theorem Packed.get?_eq (packed : tree.Packed capacity front last) (index : Nat) :
    tree.get? capacity index = tree.toList[index]? := by
  rw [get?_eq_segment? packed.capacity_pos fun segment member =>
    (packed.filled_row segment member).bounded, packed.shaped.segment?_eq, packed.getElem?_eq]

/-! ### Changes in place -/

/-- The same shape, and segments of the same sizes and storage one by one. -/
structure Matches (other tree : Tree α level) : Prop where
  shaped : other.Shaped
  outlines : other.row.map Buffer.outline = tree.row.map Buffer.outline

theorem Matches.length_row {other : Tree α level} (matched : other.Matches tree) :
    other.row.length = tree.row.length := by
  simpa using congrArg List.length matched.outlines

theorem length_toList_eq_outlines (tree : Tree α level) :
    tree.toList.length = ((tree.row.map Buffer.outline).map Prod.fst).sum := by
  rw [toList_eq_row, List.length_flatMap, List.map_map]
  rfl

theorem Matches.length_toList {other : Tree α level} (matched : other.Matches tree) :
    other.toList.length = tree.toList.length := by
  rw [length_toList_eq_outlines, matched.outlines, length_toList_eq_outlines]

theorem Packed.of_parts {other : Tree α level} {front' : List (Buffer α)} {last' : Buffer α}
    (packed : tree.Packed capacity front last) (matched : other.Matches tree)
    (parts : other.row = front' ++ [last']) : other.Packed capacity front' last' := by
  have outlines := matched.outlines
  simp only [packed.parts, parts, List.map_append, List.map_cons, List.map_nil] at outlines
  obtain ⟨inFront, atEnd⟩ := List.append_inj' outlines rfl
  exact matched.shaped.packed parts (Buffer.full_of_outlines packed.full inFront)
    (packed.filled.of_outline (List.cons.inj atEnd).1)

theorem Packed.of_matches {other : Tree α level} (packed : tree.Packed capacity front last)
    (matched : other.Matches tree) :
    ∃ front' last', other.Packed capacity front' last' ∧ front'.length = front.length := by
  obtain ⟨front', last', parts⟩ := matched.shaped.exists_last
  refine ⟨front', last', packed.of_parts matched parts, ?_⟩
  have number := matched.length_row
  rw [parts, packed.parts, List.length_append, List.length_append] at number
  exact Nat.add_right_cancel number

/-- A branch keeps its shape if each child keeps its shape and its number of segments. -/
theorem Shaped.of_children {children others : Array (Tree α level)}
    (shaped : @Shaped α (level + 1) children) (same : others.size = children.size)
    (each : ∀ (position : Nat) (child other : Tree α level), children[position]? = some child →
      others[position]? = some other → child.Shaped →
        other.Shaped ∧ other.row.length = child.row.length) :
    @Shaped α (level + 1) others ∧
      (@row α (level + 1) others).length = (@row α (level + 1) children).length := by
  obtain ⟨before, last, rfl, few, complete, inner⟩ := shaped
  have some : others.size ≠ 0 := by simp [same]
  obtain ⟨others, final, rfl⟩ := Array.eq_push_of_size_ne_zero some
  have sizes : others.size = before.size := by simpa using same
  obtain ⟨innerShaped, innerLength⟩ :=
    each before.size last final (by simp) (by simp [← sizes]) inner
  have complete' : ∀ other ∈ others, other.Shaped ∧ other.row.length = leaves level := by
    intro other member
    obtain ⟨position, inside, rfl⟩ := Array.mem_iff_getElem.mp member
    have inside' : position < before.size := sizes ▸ inside
    have original := Array.getElem_mem inside'
    have kept := each position before[position] others[position]
      (by simp [Array.getElem?_push, Nat.ne_of_lt inside'])
      (by simp [Array.getElem?_push, Nat.ne_of_lt inside])
      (complete _ original).1
    exact ⟨kept.1, kept.2.trans (complete _ original).2⟩
  refine ⟨.push (sizes ▸ few) complete' innerShaped, ?_⟩
  rw [row_push, row_push, List.length_append, List.length_append, innerLength,
    length_row_of_complete complete, length_row_of_complete complete', sizes]

theorem Shaped.modify (shaped : tree.Shaped) (capacity : Nat) (change : α → α) (index : Nat) :
    (tree.modify capacity change index).Shaped ∧
      (tree.modify capacity change index).row.length = tree.row.length := by
  induction level generalizing index with
  | zero => exact ⟨trivial, rfl⟩
  | succ level ih =>
    change Array (Tree α level) at tree
    apply shaped.of_children Array.size_modify
    intro position child other here changed inner
    simp only [Array.getElem?_modify, here] at changed
    split at changed
    · cases changed
      exact ih inner _
    · cases changed
      exact ⟨inner, rfl⟩

theorem Shaped.refill (shaped : tree.Shaped) (capacity : Nat) (contents : Array α) (start : Nat) :
    (tree.refill capacity contents start).Shaped ∧
      (tree.refill capacity contents start).row.length = tree.row.length := by
  induction level generalizing start with
  | zero => exact ⟨trivial, rfl⟩
  | succ level ih =>
    change Array (Tree α level) at tree
    apply shaped.of_children Array.size_mapIdx
    intro position child other here changed inner
    simp only [Array.getElem?_mapIdx, here] at changed
    cases changed
    exact ih inner _

theorem outlines_modify (capacity : Nat) (change : α → α) (index : Nat) (tree : Tree α level) :
    (tree.modify capacity change index).row.map Buffer.outline = tree.row.map Buffer.outline := by
  induction level generalizing index with
  | zero =>
    change Buffer α at tree
    simp [modify, Buffer.outline, Buffer.size]
  | succ level ih =>
    change Array (Tree α level) at tree
    simp only [modify, row_branch, Array.toList_modify, List.map_flatMap]
    rw [List.flatMap_def, List.flatMap_def]
    exact congrArg List.flatten (map_modify_of_same (fun child => ih _ child) _)

/-- A changed element is seen at its position, and at no other. -/
theorem get?_modify (capacity : Nat) (change : α → α) (index position : Nat)
    (tree : Tree α level) :
    (tree.modify capacity change index).get? capacity position =
      if index = position then (tree.get? capacity position).map change
      else tree.get? capacity position := by
  induction level generalizing index position with
  | zero => exact Array.getElem?_modify
  | succ level ih =>
    change Array (Tree α level) at tree
    have path (n : Nat) := Nat.div_add_mod n (span capacity level)
    simp only [modify, get?, Array.getElem?_modify]
    cases tree[position / span capacity level]? with
    | none => simp
    | some child =>
      by_cases here : index / span capacity level = position / span capacity level
      · have same : index % span capacity level = position % span capacity level ↔
            index = position := by
          rw [← Nat.add_left_cancel_iff
            (n := span capacity level * (position / span capacity level)), path, ← here, path]
        simp only [here, if_true, Option.map_some, ih, same]
      · have different : index ≠ position := fun same => here (by rw [same])
        simp only [here, different, if_false]

/-- A change of one element of a packed tree is that change of its list. -/
theorem Packed.modify (packed : tree.Packed capacity front last) (change : α → α) (index : Nat) :
    (tree.modify capacity change index).Matches tree ∧
      (tree.modify capacity change index).toList = tree.toList.modify index change := by
  have matched : (tree.modify capacity change index).Matches tree :=
    ⟨(packed.shaped.modify capacity change index).1, outlines_modify capacity change index tree⟩
  obtain ⟨_, _, packed', -⟩ := packed.of_matches matched
  refine ⟨matched, List.ext_getElem? fun position => ?_⟩
  rw [← packed'.get?_eq, get?_modify, packed.get?_eq, List.getElem?_modify]
  cases tree.toList[position]? with
  | none => simp
  | some x =>
    simp only [Option.map_some, Option.map_eq_map]
    split <;> rfl

theorem segment?_refill (capacity : Nat) (contents : Array α) (start number : Nat)
    (tree : Tree α level) :
    (tree.refill capacity contents start).segment? number =
      (tree.segment? number).map fun segment =>
        { segment with
          items := contents.extract (start + number * capacity)
            (start + number * capacity + segment.size) } := by
  induction level generalizing start number with
  | zero =>
    change Buffer α at tree
    cases number <;> simp [refill, segment?]
  | succ level ih =>
    change Array (Tree α level) at tree
    simp only [refill, segment?, Array.getElem?_mapIdx]
    cases tree[number / leaves level]? with
    | none => rfl
    | some child =>
      have place : start + number / leaves level * span capacity level +
          number % leaves level * capacity = start + number * capacity := by
        conv_rhs => rw [← Nat.div_add_mod number (leaves level)]
        rw [span_eq]
        ring
      simp only [Option.map_some, ih, place]

/-- New contents of the right length take the places of the old ones. -/
theorem Packed.refill (packed : tree.Packed capacity front last) {contents : Array α}
    (enough : contents.size = tree.toList.length) :
    (tree.refill capacity contents 0).Matches tree ∧
      (tree.refill capacity contents 0).toList = contents.toList := by
  have shaped' := (packed.shaped.refill capacity contents 0).1
  have rewritten (number : Nat) := segment?_refill capacity contents 0 number tree
  simp only [shaped'.segment?_eq, packed.shaped.segment?_eq, Nat.zero_add] at rewritten
  rw [packed.length_eq] at enough
  -- Every segment lies within the contents, so its new part has the old size.
  have fits (number : Nat) (segment : Buffer α) (here : tree.row[number]? = some segment) :
      number * capacity + segment.size ≤ contents.size := by
    rw [packed.parts, List.getElem?_append] at here
    split at here
    · rename_i inFront
      have full := packed.full segment (List.mem_of_getElem? here)
      have before : (number + 1) * capacity ≤ front.length * capacity :=
        Nat.mul_le_mul_right _ inFront
      rw [Nat.succ_mul] at before
      rw [full.size]
      omega
    · obtain ⟨atEnd, rfl⟩ : number - front.length = 0 ∧ last = segment := by
        simpa [List.getElem?_singleton] using here
      obtain rfl : number = front.length := by omega
      omega
  have matched : (tree.refill capacity contents 0).Matches tree := by
    refine ⟨shaped', List.ext_getElem? fun number => ?_⟩
    rw [List.getElem?_map, List.getElem?_map, rewritten]
    cases here : tree.row[number]? with
    | none => rfl
    | some segment =>
      have bound := fits number segment here
      simp only [Option.map_some, Buffer.outline, Buffer.size, Array.size_extract] at bound ⊢
      congr 2
      omega
  obtain ⟨_, _, packed', -⟩ := packed.of_matches matched
  have lengths := matched.length_toList
  rw [packed.length_eq, ← enough] at lengths
  refine ⟨matched, List.ext_getElem? fun position => ?_⟩
  by_cases inside : position < contents.size
  · have old : tree.toList[position]? ≠ none := by
      rw [Ne, List.getElem?_eq_none_iff, packed.length_eq]
      omega
    have place := Nat.div_add_mod' position capacity
    rw [packed.getElem?_eq] at old
    rw [packed'.getElem?_eq, rewritten]
    cases here : tree.row[position / capacity]? with
    | none => simp [here] at old
    | some segment =>
      have bound := fits _ segment here
      have taken : position % capacity < segment.size := by
        simpa [here, Buffer.size] using old
      simp only [Option.map_some, Option.bind_some, Array.getElem?_extract, Nat.min_eq_left bound,
        Nat.add_sub_cancel_left, taken, if_true, place]
      exact Array.getElem?_toList.symm
  · rw [List.getElem?_eq_none (by omega), List.getElem?_eq_none (by simpa using inside)]

end Tree

end Segmented
