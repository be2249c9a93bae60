import Segmented.Proofs.Fault
import Segmented.Proofs.WellFormed

/-! An insertion into a tree, as it is seen from outside: the last element leaves exactly if there
is no room behind it, and then nothing has changed but the elements. -/

namespace Segmented.Tree

variable {σ α : Type} {level : Nat} {options : Options} {tree : Tree α level}
  {front : List (Buffer α)} {last : Buffer α}

/-- The number of elements in the last segment. -/
def lastSize (tree : Tree α level) : Nat := (tree.row.getLast?.map Buffer.size).getD 0

theorem lastSize_of_parts (parts : tree.row = front ++ [last]) : tree.lastSize = last.size := by
  rw [lastSize, parts, List.getLast?_concat]
  rfl

/-- What an insertion of `x` at `index` makes of a tree, and what it carries out of it. -/
structure Inserted (options : Options) (index : Nat) (x : α) (tree tree' : Tree α level)
    (carry : Option α) : Prop where
  carried : carry.isSome ↔ tree.lastSize = options.segmentCapacity
  elements : tree'.toList ++ carry.toList = tree.toList.insertIdx index x
  shape : tree'.WellFormed options.segmentCapacity.log2
  segments : tree'.segmentCount = tree.segmentCount
  length : tree'.toList.length =
    if carry.isSome then tree.toList.length else tree.toList.length + 1

theorem WellFormed.exists_packed_of_options
    (wellFormed : tree.WellFormed options.segmentCapacity.log2) :
    ∃ front last, tree.Packed options.segmentCapacity front last := by
  obtain ⟨front, last, packed⟩ := wellFormed.exists_packed
  rw [options.two_pow_log2] at packed
  exact ⟨front, last, packed⟩

theorem Packed.wellFormed_log2 (packed : tree.Packed options.segmentCapacity front last) :
    tree.WellFormed options.segmentCapacity.log2 := by
  rw [← options.two_pow_log2] at packed
  exact wellFormed_of_packed packed

variable [Allocator σ α] [LawfulAllocator σ α]

open Depot (Keeps)

omit [LawfulAllocator σ α] in
/-- In a tree without room every segment hands its last element on. -/
theorem Packed.inserted_of_full (packed : tree.Packed options.segmentCapacity front last)
    (full : last.Full options.segmentCapacity) {index : Nat} (inside : index < tree.toList.length)
    (x : α) : ∃ (tree' : Tree α level) (carry : α),
      (tree.insert options index x : Depot.Step σ _) = pure (tree', some carry) ∧
        Inserted options index x tree tree' (some carry) := by
  obtain ⟨tree', carry, run, matched, contents⟩ := (packed.insert (σ := σ) inside x).of_full full
  obtain ⟨front', last', packed', -⟩ := packed.of_matches matched
  refine ⟨tree', carry, run, ?_⟩
  constructor
  · rw [lastSize_of_parts packed.parts, full.size]
    exact ⟨fun _ => rfl, fun _ => rfl⟩
  · exact contents
  · exact packed'.wellFormed_log2
  · rw [segmentCount_eq_row, segmentCount_eq_row, matched.length_row]
  · exact matched.length_toList

/-- Otherwise the last segment takes in what comes to it. -/
theorem Packed.keeps_insert_of_room (packed : tree.Packed options.segmentCapacity front last)
    (room : last.size < options.segmentCapacity) {index : Nat}
    (inside : index < tree.toList.length) (x : α) :
    Keeps (tree.insert options index x : Depot.Step σ _) fun answer =>
      Inserted options index x tree answer.1 answer.2 := by
  obtain ⟨other, front', index', x', run, matched, parts, within, contents⟩ :=
    packed.insert (σ := σ) inside x
  have packed' := packed.of_parts matched parts
  rw [run, intoSegment_of_room (Buffer.isFull_eq_false_iff.mpr room), bind_assoc]
  simp only [pure_bind]
  apply (Buffer.ensures_insert x' room packed.filled.fits (Nat.le_of_lt within)).keeps.map
  intro longer done
  have packed'' := packed'.opened.setLast done.2
  have elements : (other.setLast longer).toList = tree.toList.insertIdx index x := by
    rw [packed''.toList_eq, done.1, contents]
  constructor
  · rw [lastSize_of_parts packed.parts]
    constructor
    · intro none
      cases none
    · intro full
      exact absurd full (Nat.ne_of_lt room)
  · rw [Option.toList_none, List.append_nil]
    exact elements
  · exact packed''.wellFormed_log2
  · rw [segmentCount_eq_row, segmentCount_eq_row, packed''.parts, ← matched.length_row, parts,
      List.length_append, List.length_append]
    rfl
  · rw [elements, List.length_insertIdx, if_pos (Nat.le_of_lt inside)]
    rfl

/-- An insertion before the end of a well-formed tree carries an element out exactly if the last
segment is full. With it the elements are those of before, with the new one among them; the tree
stays well formed, and no segment is opened. -/
theorem WellFormed.insert_carries (wellFormed : tree.WellFormed options.segmentCapacity.log2)
    {index : Nat} (inside : index < tree.toList.length) (x : α) (depot : Depot σ)
    (sound : LawfulAllocator.Sound depot.allocator) :
    Inserted options index x tree ((tree.insert options index x).run depot).1.1
      ((tree.insert options index x).run depot).1.2 := by
  obtain ⟨front, last, packed⟩ := wellFormed.exists_packed_of_options
  rcases Nat.eq_or_lt_of_le packed.filled.bounded with full | room
  · obtain ⟨tree', carry, run, inserted⟩ :=
      packed.inserted_of_full (σ := σ) ⟨full, packed.filled.fits⟩ inside x
    rw [run]
    exact inserted
  · exact (packed.keeps_insert_of_room room inside x depot sound).2

/-- The numbers from zero on in two segments: sixteen in the first, and so many in the second. -/
def inTwo (count : Nat) : Tree Nat 1 :=
  let first : Buffer Nat := { items := Array.range 16, capacity := 16 }
  let second : Buffer Nat := { items := Array.range' 16 count, capacity := 16 }
  (#[first, second] : Array (Buffer Nat))

theorem wellFormed_inTwo (sixteen : options.segmentCapacity = 16) {count : Nat} (some : 1 ≤ count)
    (most : count ≤ 16) : (inTwo count).WellFormed options.segmentCapacity.log2 := by
  rw [sixteen, @Nat.log2_two_pow 4]
  refine ⟨Nat.le_succ 1, Nat.le_of_ble_eq_true rfl, ?_, ?_⟩
  · intro child member
    obtain rfl := List.mem_singleton.mp member
    rfl
  · intro child member
    rcases List.mem_pair.mp member with rfl | rfl
    · exact ⟨by decide, by decide, by decide⟩
    · have size : (Array.range' 16 count).size = count := Array.size_range'
      refine ⟨?_, ?_, ?_⟩
      · exact some.trans_eq size.symm
      · exact size.trans_le most
      · exact size.trans_le most

/-- Thirty-two elements leave no room for one before them; the last one leaves. -/
theorem insert_carries_inTwo :
    let options : Options := { segmentCapacity := 16 }
    let answer := (((inTwo 16).insert options 0 1000).run
      ({ allocator := ⟨⟩ } : Depot (Heap Nat))).1
    Inserted options 0 1000 (inTwo 16) answer.1 answer.2 ∧ answer.2 = some 31 := by
  intro options answer
  have wellFormed := wellFormed_inTwo (rfl : options.segmentCapacity = 16) (by decide)
    (Nat.le_refl 16)
  have inside : 0 < (inTwo 16).toList.length := by decide +kernel
  have carried : answer.2 = some 31 := by decide +kernel
  have inserted := wellFormed.insert_carries inside 1000
    ({ allocator := ⟨⟩ } : Depot (Heap Nat)) trivial
  exact ⟨inserted, carried⟩

end Segmented.Tree
