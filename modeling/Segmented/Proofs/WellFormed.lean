import Segmented.Proofs.Cascade
import Segmented.Proofs.Calls
import Segmented.Proofs.Restore

/-! The shape of a sequence in full, and that every state that public operations reach has it. -/

namespace Segmented

variable {α : Type}

namespace Tree

/-- Every branch has from one to 65536 children, and all of them but the last hold the whole power
of two of elements that a shift at this level selects. Every segment holds at least one element, at
most `2 ^ shift`, and no more than it has storage for. -/
def WellFormed (shift : Nat) : {level : Nat} → Tree α level → Prop
  | 0, (segment : Buffer α) =>
    1 ≤ segment.size ∧ segment.size ≤ 2 ^ shift ∧ segment.size ≤ segment.capacity
  | level + 1, (children : Array (Tree α level)) =>
    1 ≤ children.size ∧ children.size ≤ 65536 ∧
      (∀ child ∈ children.toList.dropLast, child.toList.length = 2 ^ (shift + 16 * level)) ∧
      ∀ child ∈ children.toList, child.WellFormed shift

theorem span_two_pow (shift level : Nat) : span (2 ^ shift) level = 2 ^ (shift + 16 * level) := by
  induction level with
  | zero => rfl
  | succ level ih =>
    rw [span, ih, fanout, show 65536 = 2 ^ 16 from rfl, ← Nat.pow_add]
    congr 1
    omega

theorem wellFormed_of_packed {level shift : Nat} {tree : Tree α level} {front : List (Buffer α)}
    {last : Buffer α} (packed : tree.Packed (2 ^ shift) front last) : tree.WellFormed shift := by
  induction level generalizing front last with
  | zero =>
    obtain ⟨rfl, rfl⟩ := eq_of_row_segment packed.parts
    exact ⟨packed.filled.positive, packed.filled.bounded, packed.filled.fits⟩
  | succ level ih =>
    obtain ⟨before, child, rfl, few, -⟩ := packed.shaped
    obtain ⟨inner, innerPacked, -, -, complete⟩ := packed.exists_inner
    have positive := packed.capacity_pos
    refine ⟨?_, ?_, ?_, ?_⟩
    · rw [Array.size_push]
      exact Nat.succ_pos _
    · rw [Array.size_push]
      exact few
    · intro tree member
      rw [Array.toList_push, List.dropLast_concat] at member
      rw [(complete tree member).length_toList, span_two_pow]
    · intro tree member
      rw [Array.toList_push] at member
      rcases List.mem_append.mp member with old | new
      · obtain ⟨_, _, packed, -⟩ := (complete tree old).exists_packed positive
        exact ih packed
      · exact List.mem_singleton.mp new ▸ ih innerPacked

/-- A packed tree with as many elements as its level can hold is complete. -/
theorem Packed.complete {level capacity : Nat} {tree : Tree α level} {front : List (Buffer α)}
    {last : Buffer α} (packed : tree.Packed capacity front last)
    (whole : tree.toList.length = span capacity level) : tree.Complete capacity := by
  have few := packed.shaped.length_le
  have number : tree.row.length = front.length + 1 := by
    rw [packed.parts, List.length_append, List.length_singleton]
  have bounded := packed.filled.bounded
  rw [packed.length_eq, span_eq, Nat.mul_comm capacity] at whole
  have many : leaves level ≤ front.length + 1 := by
    refine Nat.le_of_mul_le_mul_right ?_ packed.capacity_pos
    rw [← whole, Nat.succ_mul]
    exact Nat.add_le_add_left bounded _
  have all : leaves level = front.length + 1 := by omega
  rw [all, Nat.succ_mul] at whole
  refine ⟨packed.shaped, number.trans all.symm, ?_⟩
  intro segment member
  rw [packed.parts] at member
  rcases List.mem_append.mp member with inFront | atEnd
  · exact packed.full segment inFront
  · rw [List.mem_singleton.mp atEnd]
    exact ⟨by omega, packed.filled.fits⟩

/-- A well-formed tree is packed: what its branches say of their children comes down to the row of
its segments. -/
theorem WellFormed.exists_packed {level shift : Nat} {tree : Tree α level}
    (wellFormed : tree.WellFormed shift) : ∃ front last, tree.Packed (2 ^ shift) front last := by
  induction level with
  | zero =>
    change Buffer α at tree
    obtain ⟨positive, bounded, fits⟩ := wellFormed
    exact ⟨[], tree, packed_segment ⟨positive, bounded, fits⟩⟩
  | succ level ih =>
    change Array (Tree α level) at tree
    obtain ⟨some, few, wide, each⟩ := wellFormed
    obtain ⟨before, child, rfl⟩ := Array.eq_push_of_size_ne_zero (Nat.ne_of_gt some)
    rw [Array.toList_push] at wide each
    rw [List.dropLast_concat] at wide
    obtain ⟨inner, last, packed⟩ := ih (each child (by simp))
    have complete : ∀ tree ∈ before.toList, tree.Complete (2 ^ shift) := by
      intro tree member
      obtain ⟨front, final, packed'⟩ := ih (each tree (by simp [member]))
      exact packed'.complete ((wide tree member).trans (span_two_pow shift level).symm)
    refine ⟨before.toList.flatMap row ++ inner, last, ?_⟩
    have shaped : @Shaped α (level + 1) (before.push child) := by
      refine .push ?_ ?_ packed.shaped
      · rw [Array.size_push] at few
        exact few
      · intro tree member
        have whole := complete tree (Array.mem_toList_iff.mpr member)
        exact ⟨whole.shaped, whole.length⟩
    refine shaped.packed ?_ ?_ packed.filled
    · rw [row_push, packed.parts, List.append_assoc]
    · intro segment member
      rcases List.mem_append.mp member with inFront | inside
      · obtain ⟨tree, member', inside⟩ := List.mem_flatMap.mp inFront
        exact (complete tree member').full segment inside
      · exact packed.full segment inside

end Tree

/-- Every segment capacity is the power of two that shifts go by. -/
theorem Options.two_pow_log2 (options : Options) :
    2 ^ options.segmentCapacity.log2 = options.segmentCapacity := by
  have power := options.supported.2.2
  rwa [Nat.one_shiftLeft] at power

namespace Sequence

/-- The shape of a sequence: its tree, the segments of the tree in a row, and the tail. -/
structure WellFormed (s : Sequence α) : Prop where
  root : s.root = none ↔ s.length = 0
  tree : ∀ root, s.root = some root → root.tree.WellFormed s.options.segmentCapacity.log2
  elements : s.toArray.size = s.length
  count : s.segmentCount = (s.length + s.options.segmentCapacity - 1) / s.options.segmentCapacity
  full : ∀ segment ∈ s.segments.toList.dropLast, segment.size = s.options.segmentCapacity
  last : ∀ segment, s.segments.toList.getLast? = some segment →
    1 ≤ segment.size ∧ segment.size ≤ s.options.segmentCapacity
  stored : ∀ segment ∈ s.segments.toList, segment.size ≤ segment.capacity
  tail : s.tail = if s.length = 0 then none else some (s.segmentCount - 1)
  tailSegment : s.tailSegment? = s.segments.toList.getLast?

theorem wellFormed_of_valid {s : Sequence α} (valid : s.Valid) : s.WellFormed := by
  have elements : s.toArray.size = s.length := valid.length_eq.symm
  have capacity := s.options.two_pow_log2
  have positive := s.options.segmentCapacity_pos
  have root := valid.length_eq_zero_iff.symm
  cases valid with
  | empty here zero tail =>
    have none : s.segments.toList = [] := by simp [segments, here]
    refine ⟨root, ?_, elements, ?_, ?_, ?_, ?_, ?_, ?_⟩
    · simp [here]
    · rw [segmentCount_eq_length, none, zero, Nat.div_eq_of_lt (by omega)]
      rfl
    · simp [none]
    · simp [none]
    · simp [none]
    · rw [tail, if_pos zero]
    · rw [none, tailSegment?, tail]
      rfl
  | tree here packed total tail =>
    rename_i level tree front last
    have row : s.segments.toList = front ++ [last] := (segments_eq_row here).trans packed.parts
    have count : s.segmentCount = front.length + 1 := by
      rw [segmentCount_eq_length, row, List.length_append, List.length_singleton]
    have some : s.length ≠ 0 := fun zero => by simp [root.mpr zero] at here
    have bounded := packed.filled.bounded
    have nonempty := packed.filled.positive
    refine ⟨root, ?_, elements, ?_, ?_, ?_, ?_, ?_, ?_⟩
    · intro other same
      cases here.symm.trans same
      rw [← capacity] at packed
      exact Tree.wellFormed_of_packed packed
    · have length := total.trans packed.length_eq
      have split : s.length + s.options.segmentCapacity - 1 =
          s.options.segmentCapacity * (front.length + 1) + (last.size - 1) := by
        rw [length, Nat.mul_comm s.options.segmentCapacity, Nat.succ_mul]
        omega
      rw [count, split, Nat.mul_add_div positive, Nat.div_eq_of_lt (by omega)]
    · intro segment member
      rw [row, List.dropLast_concat] at member
      exact (packed.full segment member).size
    · intro segment same
      rw [row, List.getLast?_concat] at same
      cases same
      exact ⟨nonempty, bounded⟩
    · intro segment member
      rw [row] at member
      exact (packed.filled_row segment (packed.parts ▸ member)).fits
    · rw [tail, if_neg some, count, Nat.add_sub_cancel]
    · rw [row, List.getLast?_concat, Valid.tailSegment?_eq here packed tail]

variable [BEq α] [Inhabited α]

/-- The sequences that public operations lead to, each with any lawful allocator in any of its sound
states: an empty one, what a call leaves whether it is refused or not, a copy, and what is restored
from a source of any kind. -/
inductive Reachable : Sequence α → Prop
  | withCapacity (hint : Nat) (options : Options) : Reachable (withCapacity hint options)
  | edit {σ : Type} [Allocator σ α] [LawfulAllocator σ α] (edit : Edit α) (depot : Depot σ)
      {s : Sequence α} (sound : LawfulAllocator.Sound depot.allocator) (earlier : Reachable s) :
      Reachable ((edit.apply s).run depot).1.2
  | copy {σ : Type} [Allocator σ α] [LawfulAllocator σ α] (depot : Depot σ) {s : Sequence α}
      (sound : LawfulAllocator.Sound depot.allocator) (earlier : Reachable s) :
      Reachable (s.copy.run depot).1
  | restore {σ ω : Type} [Allocator σ α] [LawfulAllocator σ α] [Source ω α] (source : ω)
      (depot : Depot σ) {s : Sequence α} (sound : LawfulAllocator.Sound depot.allocator)
      (restored : ((Snapshot.restore source).run depot).1.1 = .ok s) : Reachable s

theorem Reachable.valid {s : Sequence α} (reachable : s.Reachable) : s.Valid := by
  induction reachable with
  | withCapacity hint options => exact valid_empty options _
  | edit edit depot sound _ valid => exact (edit.ensures_apply valid depot sound).2.1
  | copy depot sound => exact (ensures_copy _ depot sound).2.valid
  | restore source depot sound restored =>
    exact (Snapshot.ensures_restore source depot sound).2 _ restored

/-- What a run of calls makes of an empty sequence with the smallest segments, when every buffer is
allocated anew. -/
def onHeap (edits : List (Edit α)) : Sequence α :=
  edits.foldl (fun s edit => ((edit.apply s).run ({ allocator := ⟨⟩ } : Depot (Heap α))).1.2)
    (Sequence.withCapacity 0 { segmentCapacity := 16 })

theorem reachable_onHeap (edits : List (Edit α)) : (onHeap edits).Reachable := by
  induction edits using List.reverseRecOn with
  | nil => exact .withCapacity 0 _
  | append_singleton edits edit ih =>
    rw [onHeap, List.foldl_concat]
    exact .edit edit _ trivial ih

theorem options_onHeap (edits : List (Edit α)) :
    (onHeap edits).options = { segmentCapacity := 16 } := by
  induction edits using List.reverseRecOn with
  | nil => rfl
  | append_singleton edits edit ih =>
    rw [onHeap, List.foldl_concat]
    exact (edit.ensures_apply (reachable_onHeap edits).valid _ trivial).2.2.trans ih

/-- Every sequence that public operations lead to is well formed. -/
theorem Reachable.wellFormed {s : Sequence α} (reachable : s.Reachable) : s.WellFormed :=
  wellFormed_of_valid reachable.valid

/-- A sequence of two levels that a removal has brought back to one segment. -/
theorem wellFormed_of_shrunk :
    let grown := ((Edit.extend (List.range 17)).apply
      (withCapacity 0 { segmentCapacity := 16 })).run ({ allocator := ⟨⟩ } : Depot (Heap Nat))
    ((Edit.removeAt 3).apply grown.1.2 |>.run grown.2).1.2.WellFormed :=
  Reachable.wellFormed (.edit _ _ trivial (.edit _ _ trivial (.withCapacity 0 _)))

end Sequence

end Segmented
