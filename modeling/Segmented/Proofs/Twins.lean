import Segmented.Proofs.Refinement
import Segmented.Proofs.SearchLast
import Segmented.Proofs.Versions
import Segmented.Proofs.WellFormed

/-! Two sequences of the same elements may lie in different trees: one in a single segment, the
other in a tree that has shrunk without losing a level. What a caller is told about them is the
same, but for the version after a removal in bulk. -/

namespace Segmented

variable {α : Type}

namespace Sequence

/-- The two sequences have the same options, elements and version, in whatever trees. -/
structure Twins (s t : Sequence α) : Prop where
  options : s.options = t.options
  elements : s.toList = t.toList
  version : s.version = t.version

/-- What a call on each of two sequences answers and leaves is the same. The version is so too,
unless the call removes in bulk: that is at most one step in a single segment, and one step for
every element that goes in any other tree. -/
structure Alike (edit : Edit α) (s t : Sequence α)
    (after after' : Except Failure (Reply α) × Sequence α) : Prop where
  answer : after.1 = after'.1
  elements : after.2.toList = after'.2.toList
  options : after.2.options = after'.2.options
  version : ¬edit.InBulk → after.2.version = after'.2.version
  bulk : edit.InBulk →
    s.Moved (bulkSteps s.isFlat (s.length - after.2.length)) after.2 ∧
      t.Moved (bulkSteps t.isFlat (t.length - after'.2.length)) after'.2

variable {s t : Sequence α}

theorem Twins.copyTo (twins : s.Twins t) (valid : s.Valid) (valid' : t.Valid) (start : Nat)
    (target : Array α) (index count : Nat) :
    s.copyTo start target index count = t.copyTo start target index count := by
  have length : s.length = t.length := by
    rw [valid.length_eq, valid'.length_eq, twins.elements]
  have window : s.window start count = t.window start count := by
    simp only [Sequence.window, valid.get?_eq, valid'.get?_eq, twins.elements]
  simp only [Sequence.copyTo, length, window]

variable [BEq α] [Inhabited α]

/-- A call cannot tell twins apart. -/
theorem Twins.apply {σ τ : Type} [Allocator σ α] [LawfulAllocator σ α] [Allocator τ α]
    [LawfulAllocator τ α] (twins : s.Twins t) (valid : s.Valid) (valid' : t.Valid)
    (live : s.disposed = false) (live' : t.disposed = false) {edit : Edit α}
    (listed : edit.OnLists) (depot : Depot σ) (depot' : Depot τ)
    (sound : LawfulAllocator.Sound depot.allocator)
    (sound' : LawfulAllocator.Sound depot'.allocator) :
    Alike edit s t ((edit.apply s).run depot).1 ((edit.apply t).run depot').1 := by
  obtain ⟨-, answered, follows⟩ := edit.ensures_apply_onList valid live listed depot sound
  obtain ⟨-, answered', follows'⟩ := edit.ensures_apply_onList valid' live' listed depot' sound'
  have lives : edit ≠ .dispose := by
    rintro rfl
    exact listed
  have moved := edit.moved_apply valid live lives depot sound
  have moved' := edit.moved_apply valid' live' lives depot' sound'
  constructor
  · rw [answered, answered', twins.elements]
  · rw [follows.elements, follows'.elements, twins.elements]
  · rw [follows.options, follows'.options, twins.options]
  · intro single
    rw [Moved] at moved moved'
    rw [moved, moved', twins.version, twins.elements, edit.steps_congr single]
  · intro bulk
    rw [edit.steps_of_inBulk bulk, ← follows.elements, ← valid.length_eq,
      ← follows.valid.length_eq] at moved
    rw [edit.steps_of_inBulk bulk, ← follows'.elements, ← valid'.length_eq,
      ← follows'.valid.length_eq] at moved'
    exact ⟨moved, moved'⟩

/-- Twins stay twins through a run of calls that removes nothing in bulk, and answer alike. -/
theorem Twins.trace {σ τ : Type} [Allocator σ α] [LawfulAllocator σ α] [Allocator τ α]
    [LawfulAllocator τ α] (twins : s.Twins t) (valid : s.Valid) (valid' : t.Valid)
    (live : s.disposed = false) (live' : t.disposed = false) {edits : List (Edit α)}
    (listed : ∀ edit ∈ edits, edit.OnLists) (single : ∀ edit ∈ edits, ¬edit.InBulk)
    (depot : Depot σ) (depot' : Depot τ) (sound : LawfulAllocator.Sound depot.allocator)
    (sound' : LawfulAllocator.Sound depot'.allocator) :
    List.Forall₂ (fun after after' => after.1 = after'.1 ∧ after.2.Twins after'.2)
      ((Edit.trace edits s).run depot).1 ((Edit.trace edits t).run depot').1 := by
  induction edits generalizing s t depot depot' with
  | nil => exact .nil
  | cons edit rest ih =>
    have here : edit.OnLists := listed edit (by simp)
    obtain ⟨extended, -, follows⟩ := edit.ensures_apply_onList valid live here depot sound
    obtain ⟨extended', -, follows'⟩ := edit.ensures_apply_onList valid' live' here depot' sound'
    have alike := twins.apply valid valid' live live' here depot depot' sound sound'
    have version := alike.version (single edit (by simp))
    refine .cons ⟨alike.answer, alike.options, alike.elements, version⟩ ?_
    apply ih ⟨alike.options, alike.elements, version⟩ follows.valid follows'.valid
      (follows.disposed.trans live) (follows'.disposed.trans live')
    · exact fun edit member => listed edit (by simp [member])
    · exact fun edit member => single edit (by simp [member])
    · exact extended.sound
    · exact extended'.sound

/-- Two live sequences that public operations lead to, and that have the same options, elements and
version, cannot be told apart by any call, search or copy; but for the version after a removal in
bulk. -/
theorem Reachable.twins_alike (reachable : s.Reachable) (reachable' : t.Reachable)
    (live : s.disposed = false) (live' : t.disposed = false) (twins : s.Twins t) :
    (∀ {σ τ : Type} [Allocator σ α] [LawfulAllocator σ α] [Allocator τ α] [LawfulAllocator τ α]
        (edit : Edit α), edit.OnLists → ∀ (depot : Depot σ) (depot' : Depot τ),
        LawfulAllocator.Sound depot.allocator → LawfulAllocator.Sound depot'.allocator →
        Alike edit s t ((edit.apply s).run depot).1 ((edit.apply t).run depot').1) ∧
      (∀ {S : Type} (test : α → StateM S Bool) (start stop : Nat),
        s.find test start = t.find test start ∧
        s.findIn test start stop = t.findIn test start stop ∧
        s.findLast test = t.findLast test ∧
        s.findLastIn test start stop = t.findLastIn test start stop) ∧
      ∀ (start : Nat) (target : Array α) (index count : Nat),
        s.copyTo start target index count = t.copyTo start target index count := by
  have valid := reachable.valid
  have valid' := reachable'.valid
  have elements : s.toArray = t.toArray := Array.ext' twins.elements
  have length : s.length = t.length := by
    rw [valid.length_eq, valid'.length_eq, twins.elements]
  refine ⟨?_, ?_, twins.copyTo valid valid'⟩
  · intro σ τ _ _ _ _ edit listed depot depot' sound sound'
    exact twins.apply valid valid' live live' listed depot depot' sound sound'
  · intro S test start stop
    refine ⟨?_, ?_, ?_, ?_⟩
    · rw [valid.find_eq, valid'.find_eq, elements]
    · simp only [findIn, checkRange, valid.findWithin_eq, valid'.findWithin_eq, elements, length]
    · simp only [findLast, valid.findLastWithin_eq, valid'.findLastWithin_eq, elements, length]
    · simp only [findLastIn, checkRange, valid.findLastWithin_eq, valid'.findLastWithin_eq,
        elements, length]

/-- Sixteen zeros in a single segment. -/
def flatZeros : Sequence Nat := onHeap [.extend (List.replicate 16 0), .reverse, .reverse]

/-- Sixteen zeros in a tree of two levels, which a seventeenth has left behind. -/
def deepZeros : Sequence Nat := onHeap [.extend (List.replicate 17 0), .pop]

theorem twins_zeros : flatZeros.Twins deepZeros where
  options := (options_onHeap _).trans (options_onHeap _).symm
  elements := by decide +kernel
  version := by decide +kernel

theorem alike_zeros_removeAll :
    let depot : Depot (Heap Nat) := { allocator := ⟨⟩ }
    let edit : Edit Nat := .removeAll 0
    Alike edit flatZeros deepZeros ((edit.apply flatZeros).run depot).1
        ((edit.apply deepZeros).run depot).1 ∧
      flatZeros.copyTo 3 #[1, 2] 0 2 = deepZeros.copyTo 3 #[1, 2] 0 2 :=
  have alike := Reachable.twins_alike (reachable_onHeap _) (reachable_onHeap _)
    (by decide +kernel) (by decide +kernel) twins_zeros
  ⟨alike.1 (.removeAll 0) trivial _ _ trivial trivial, alike.2.2 ..⟩

/-- Twins no longer have the same version once all of their elements are removed. -/
theorem versions_zeros_removeAll :
    let depot : Depot (Heap Nat) := { allocator := ⟨⟩ }
    let edit : Edit Nat := .removeAll 0
    flatZeros.Reachable ∧ deepZeros.Reachable ∧ flatZeros.disposed = false ∧
      deepZeros.disposed = false ∧ flatZeros.Twins deepZeros ∧
      ((edit.apply flatZeros).run depot).1.2.version ≠
        ((edit.apply deepZeros).run depot).1.2.version := by
  refine ⟨reachable_onHeap _, reachable_onHeap _, ?_, ?_, twins_zeros, ?_⟩
  all_goals decide +kernel

end Sequence

end Segmented
