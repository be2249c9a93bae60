import Segmented.Proofs.Growth
import Segmented.Proofs.Pull

/-! What the operations on a packed tree do to the list of its elements and to its storage, where
they can leave it empty: removal at the end and anywhere, and insertion. -/

namespace Segmented

variable {σ α : Type}

namespace Tree

variable {level capacity : Nat} {options : Options} {tree : Tree α level}
  {front : List (Buffer α)} {last : Buffer α}

/-- What is left of a tree: nothing, or a packed tree with the listed elements. -/
def Remains (capacity : Nat) (xs : List α) (tree : Tree α level) : Prop :=
  xs ≠ [] → tree.toList = xs ∧ ∃ front last, tree.Packed capacity front last

theorem Packed.remains (packed : tree.Packed capacity front last) :
    tree.Remains capacity tree.toList :=
  fun _ => ⟨rfl, front, last, packed⟩

/-- Nothing is stored in a tree that has lost its only segment. -/
theorem storage_trimLast_of_single (shaped : tree.Shaped) (single : tree.row = [last]) :
    (tree.trimLast ({} : Buffer α)).storage = 0 := by
  have empty : ({} : Buffer α).isEmpty = true := rfl
  obtain ⟨vanished, -⟩ := shaped.trimLast_of_empty (single.trans (List.nil_append _).symm) empty
  cases level with
  | zero => rfl
  | succ level =>
    generalize tree.trimLast ({} : Buffer α) = trimmed at vanished ⊢
    change Array (Tree α level) at trimmed
    obtain rfl := Array.isEmpty_iff.mp vanished
    rfl

theorem Open.trimLast_of_empty (opened : tree.Open capacity front last) (positive : 0 < capacity) :
    (tree.trimLast ({} : Buffer α)).storage = rowStorage front ∧
      (tree.trimLast ({} : Buffer α)).Remains capacity (front.flatMap Buffer.toList) := by
  have empty : ({} : Buffer α).isEmpty = true := rfl
  obtain ⟨-, remains⟩ := opened.shaped.trimLast_of_empty opened.parts empty
  cases none : decide (front = []) with
  | true =>
    obtain rfl := of_decide_eq_true none
    exact ⟨storage_trimLast_of_single opened.shaped opened.parts, fun some => absurd rfl some⟩
  | false =>
    obtain ⟨shaped', row'⟩ := remains (of_decide_eq_false none)
    obtain ⟨front', last', parts'⟩ := shaped'.exists_last
    have full := opened.full
    rw [← row', parts'] at full
    refine ⟨by rw [storage, row'], fun _ => ⟨toList_of_row row', front', last', ?_⟩⟩
    exact shaped'.packed parts' (fun segment member => full segment (by simp [member]))
      ((full last' (by simp)).filled positive)

end Tree

variable [Allocator σ α] [LawfulAllocator σ α]

open Depot (Ensures)

namespace Tree

variable {level : Nat} {options : Options} {tree : Tree α level} {front : List (Buffer α)}
  {last : Buffer α}

/-- The last segment is replaced by one that may be empty, and then goes. -/
theorem ensures_trim (opened : tree.Open options.segmentCapacity front last) (segment : Buffer α)
    (bounded : segment.size ≤ options.segmentCapacity) (fits : segment.Fits) :
    Ensures (σ := σ) options.segmentCapacity (rowStorage front + segment.storage)
      (segment.settle options) (fun settled => (tree.trimLast settled).storage)
      (fun settled => (tree.trimLast settled).Remains options.segmentCapacity
        (front.flatMap Buffer.toList ++ segment.toList)) := by
  rw [add_comm]
  apply ((Buffer.ensures_settle options segment).frame (rowStorage front)).weaken
  intro settled done
  obtain ⟨-, -, kept, gone⟩ := done
  rcases Nat.eq_zero_or_pos segment.size with empty | nonempty
  · obtain rfl := gone empty
    obtain ⟨stored, remains⟩ := opened.trimLast_of_empty options.segmentCapacity_pos
    have nothing : segment.toList = [] :=
      List.eq_nil_of_length_eq_zero ((Buffer.length_toList segment).trans empty)
    rw [stored, nothing, List.append_nil]
    exact ⟨by rw [Buffer.storage_default, zero_add], remains⟩
  · obtain rfl := kept nonempty
    have packed := opened.setLast ⟨nonempty, bounded, fits⟩
    have same := (opened.shaped.trimLast_of_nonempty (Buffer.isEmpty_eq_false_iff.mpr nonempty)).1
    rw [same, storage_of_parts packed.parts, ← packed.toList_eq]
    exact ⟨add_comm .., packed.remains⟩

/-- A single segment goes if nothing is left in it. -/
theorem ensures_settleSegment (options : Options) (segment : Buffer α)
    (bounded : segment.size ≤ options.segmentCapacity) (fits : segment.Fits) :
    Ensures (σ := σ) options.segmentCapacity segment.storage (segment.settle options)
      (@storage α 0) (@Remains α 0 options.segmentCapacity segment.toList) := by
  apply (Buffer.ensures_settle options segment).weaken
  intro settled done
  refine ⟨(storage_segment settled).symm, fun some => ?_⟩
  have nonempty : 0 < segment.size := by
    rw [← Buffer.length_toList]
    exact List.length_pos_of_ne_nil some
  obtain rfl := done.2.2.1 nonempty
  exact ⟨rfl, [], settled, packed_segment ⟨nonempty, bounded, fits⟩⟩

theorem ensures_pop (packed : tree.Packed options.segmentCapacity front last) :
    Ensures (σ := σ) options.segmentCapacity tree.storage (tree.pop options)
      (fun answer => answer.2.storage)
      (fun answer => answer.1 = tree.toList.getLast? ∧
        answer.2.Remains options.segmentCapacity tree.toList.dropLast) := by
  obtain ⟨items, capacity⟩ := last
  obtain ⟨kept, x, rfl⟩ := Array.eq_push_of_size_ne_zero (Nat.ne_of_gt packed.filled.positive)
  have bounded := packed.filled.bounded
  have fits := packed.filled.fits
  simp only [Buffer.size, Array.size_push, Buffer.Fits] at bounded fits
  have elements : tree.toList = front.flatMap Buffer.toList ++ kept.toList ++ [x] := by
    rw [packed.toList_eq, Buffer.toList, Array.toList_push, List.append_assoc]
  rw [elements, List.getLast?_concat, List.dropLast_concat, storage_of_parts packed.parts]
  simp only [packed.shaped.pop_eq packed.parts, Buffer.pop, Array.back?_push, Array.pop_push,
    bind_assoc, pure_bind]
  refine (ensures_trim packed.opened { items := kept, capacity } ?_ ?_).map
    fun settled remains => ⟨rfl, rfl, remains⟩
  · simp only [Buffer.size]
    omega
  · simp only [Buffer.Fits, Buffer.size]
    omega

/-- The listed number of elements leaves a tree that holds more than those. -/
theorem ensures_popMany {count : Nat} (packed : tree.Packed options.segmentCapacity front last)
    (more : count < tree.toList.length) :
    Ensures (σ := σ) options.segmentCapacity tree.storage (tree.popMany options count) storage
      (Remains options.segmentCapacity (tree.toList.take (tree.toList.length - count))) := by
  induction count generalizing tree front last with
  | zero =>
    refine Ensures.pure rfl ?_
    rw [Nat.sub_zero, List.take_length]
    exact packed.remains
  | succ count ih =>
    apply (ensures_pop packed).bind
    intro answer done
    have some : tree.toList.dropLast ≠ [] := by
      refine List.ne_nil_of_length_pos ?_
      rw [List.length_dropLast]
      omega
    obtain ⟨same, _, _, packed'⟩ := done.2 some
    have shorter : answer.2.toList.length = tree.toList.length - 1 := by
      rw [same, List.length_dropLast]
    refine (ih packed' (by omega)).weaken fun tree' remains => ⟨rfl, ?_⟩
    rwa [shorter, same, List.dropLast_eq_take, List.take_take, Nat.min_eq_left (by omega),
      Nat.sub_right_comm, Nat.sub_sub] at remains

theorem ensures_removeAt (packed : tree.Packed options.segmentCapacity front last) {index : Nat}
    (inside : index < tree.toList.length) :
    Ensures (σ := σ) options.segmentCapacity tree.storage (tree.removeAt options index none)
      (fun answer => answer.2.storage)
      (fun answer => answer.1 = tree.toList[index]? ∧
        answer.2.Remains options.segmentCapacity (tree.toList.eraseIdx index)) := by
  obtain ⟨other, front', index', removed, run, matched, parts, within, found, contents⟩ :=
    packed.removeAt (σ := σ) inside
  have packed' := packed.of_parts matched parts
  have size := Buffer.size_without within
  have bounded := packed.filled.bounded
  have fits := packed.filled.fits
  unfold Buffer.Fits at fits
  rw [run, ← matched.storage, storage_of_parts parts, found, ← contents,
    ← Buffer.toList_without within]
  refine (ensures_trim packed'.opened (last.without index') (by omega) ?_).map
    fun settled remains => ⟨rfl, rfl, remains⟩
  exact (show (last.without index').size ≤ last.capacity by omega)

/-- What an insertion leaves over comes behind all that is in the tree. -/
theorem ensures_insert (packed : tree.Packed options.segmentCapacity front last) {index : Nat}
    (inside : index < tree.toList.length) (x : α) :
    Ensures (σ := σ) options.segmentCapacity tree.storage (tree.insert options index x)
      (fun answer => answer.1.storage)
      (fun answer => (∃ front last, answer.1.Packed options.segmentCapacity front last) ∧
        answer.1.toList ++ answer.2.toList = tree.toList.insertIdx index x) := by
  have reaches := packed.insert (σ := σ) inside x
  cases room : last.isFull options with
  | true =>
    have full := Buffer.full_of_isFull room packed.filled.bounded packed.filled.fits
    obtain ⟨tree', carry, run, matched, contents⟩ := reaches.of_full full
    obtain ⟨front', last', packed', -⟩ := packed.of_matches matched
    rw [run]
    exact Ensures.pure matched.storage.symm ⟨⟨front', last', packed'⟩, contents⟩
  | false =>
    obtain ⟨other, front', index', x', run, matched, parts, within, contents⟩ := reaches
    have packed' := packed.of_parts matched parts
    have space := Buffer.isFull_eq_false_iff.mp room
    rw [run, ← matched.storage, storage_of_parts parts, add_comm]
    simp only [intoSegment_of_room room, bind_assoc, pure_bind]
    refine ((Buffer.ensures_insert x' space packed.filled.fits (Nat.le_of_lt within)).frame
      (rowStorage front')).map fun longer done => ?_
    have packed'' := packed'.opened.setLast done.2
    refine ⟨?_, ⟨_, _, packed''⟩, ?_⟩
    · rw [storage_of_parts packed''.parts, add_comm]
    · rw [packed''.toList_eq, Option.toList_none, List.append_nil, done.1, contents]

end Tree

end Segmented
