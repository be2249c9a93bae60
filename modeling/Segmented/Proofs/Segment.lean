import Segmented.Buffer.Growth
import Segmented.Proofs.Ledger

/-! What each operation does to the elements of one segment, and that its storage is accounted
for. -/

namespace Segmented.Buffer

variable {σ α : Type}

/-- The elements lie within the storage. -/
def Fits (buffer : Buffer α) : Prop := buffer.size ≤ buffer.capacity

/-- What a change of elements in place leaves as it is. -/
def outline (buffer : Buffer α) : Nat × Nat := (buffer.size, buffer.capacity)

/-- As many elements as a segment may hold. -/
structure Full (capacity : Nat) (buffer : Buffer α) : Prop where
  size : buffer.size = capacity
  fits : buffer.Fits

/-- At least one element, and no more than a segment may hold. -/
structure Filled (capacity : Nat) (buffer : Buffer α) : Prop where
  positive : 0 < buffer.size
  bounded : buffer.size ≤ capacity
  fits : buffer.Fits

theorem Full.filled {capacity : Nat} (positive : 0 < capacity) {buffer : Buffer α}
    (full : buffer.Full capacity) : buffer.Filled capacity :=
  ⟨full.size ▸ positive, Nat.le_of_eq full.size, full.fits⟩

theorem Full.of_outline {capacity : Nat} {buffer other : Buffer α} (full : buffer.Full capacity)
    (same : other.outline = buffer.outline) : other.Full capacity := by
  obtain ⟨size, storage⟩ := Prod.mk.inj same
  exact ⟨size.trans full.size, by rw [Fits, size, storage]; exact full.fits⟩

theorem Filled.of_outline {capacity : Nat} {buffer other : Buffer α}
    (filled : buffer.Filled capacity) (same : other.outline = buffer.outline) :
    other.Filled capacity := by
  obtain ⟨size, storage⟩ := Prod.mk.inj same
  exact ⟨by rw [size]; exact filled.positive, by rw [size]; exact filled.bounded,
    by rw [Fits, size, storage]; exact filled.fits⟩

theorem full_of_outlines {capacity : Nat} {row other : List (Buffer α)}
    (full : ∀ segment ∈ row, segment.Full capacity)
    (same : other.map outline = row.map outline) : ∀ segment ∈ other, segment.Full capacity := by
  intro segment member
  have image : segment.outline ∈ row.map outline := same ▸ List.mem_map_of_mem member
  obtain ⟨original, present, outlines⟩ := List.mem_map.mp image
  exact (full original present).of_outline outlines.symm

theorem length_toList (buffer : Buffer α) : buffer.toList.length = buffer.size :=
  Array.length_toList

/-- The capacity of a buffer that has storage. -/
def storage (buffer : Buffer α) : Multiset Nat :=
  if buffer.capacity = 0 then 0 else {buffer.capacity}

theorem storage_of_capacity {buffer other : Buffer α} (same : buffer.capacity = other.capacity) :
    buffer.storage = other.storage := by
  rw [storage, storage, same]

@[simp] theorem storage_mk (items : Array α) (buffer : Buffer α) :
    ({ buffer with items } : Buffer α).storage = buffer.storage := rfl

@[simp] theorem storage_default : ({} : Buffer α).storage = 0 := rfl

theorem storage_of_pos {buffer : Buffer α} (stored : 0 < buffer.capacity) :
    buffer.storage = {buffer.capacity} :=
  if_neg (Nat.ne_of_gt stored)

theorem isFull_iff {options : Options} {buffer : Buffer α} :
    buffer.isFull options = true ↔ options.segmentCapacity ≤ buffer.size := by
  simp [isFull]

theorem isFull_eq_false_iff {options : Options} {buffer : Buffer α} :
    buffer.isFull options = false ↔ buffer.size < options.segmentCapacity := by
  simp [isFull]

theorem full_of_isFull {options : Options} {buffer : Buffer α}
    (full : buffer.isFull options = true) (bounded : buffer.size ≤ options.segmentCapacity)
    (fits : buffer.Fits) : buffer.Full options.segmentCapacity :=
  ⟨Nat.le_antisymm bounded (isFull_iff.mp full), fits⟩

theorem isEmpty_iff {buffer : Buffer α} : buffer.isEmpty = true ↔ buffer.items = #[] := by
  simp [isEmpty]

theorem isEmpty_eq_false_iff {buffer : Buffer α} : buffer.isEmpty = false ↔ 0 < buffer.size := by
  rw [← Bool.not_eq_true, isEmpty_iff, size, Array.size_pos_iff]

variable [Allocator σ α]

theorem makeRoom_of_spare {options : Options} {buffer : Buffer α}
    (spare : buffer.size < buffer.capacity) :
    (buffer.makeRoom options : Depot.Step σ (Buffer α)) = pure buffer :=
  if_pos spare

theorem settle_of_nonempty {options : Options} {buffer : Buffer α} (nonempty : 0 < buffer.size) :
    (buffer.settle options : Depot.Step σ (Buffer α)) = pure buffer := by
  simp [settle, isEmpty_eq_false_iff.mpr nonempty]

/-- With storage to spare an element is appended without the depot. -/
theorem push_of_spare {options : Options} {buffer : Buffer α} (x : α)
    (room : buffer.size < options.segmentCapacity) (spare : buffer.size < buffer.capacity) :
    (buffer.push options x : Depot.Step σ (Buffer α)) =
      pure { buffer with items := buffer.items.push x } := by
  simp [push, isFull_eq_false_iff.mpr room, makeRoom_of_spare spare]

theorem insert_of_spare {options : Options} {buffer : Buffer α} {index : Nat} (x : α)
    (room : buffer.size < options.segmentCapacity) (spare : buffer.size < buffer.capacity)
    (inside : index ≤ buffer.size) :
    (buffer.insert options index x : Depot.Step σ (Buffer α)) =
      pure { buffer with items := buffer.items.insertIdxIfInBounds index x } := by
  simp [insert, isFull_eq_false_iff.mpr room, makeRoom_of_spare spare, Nat.not_lt.mpr inside]

theorem removeAt_of_lt {options : Options} {buffer : Buffer α} {index : Nat}
    (inside : index < buffer.items.size) :
    (buffer.removeAt options index : Depot.Step σ (Option α × Buffer α)) = do
      let settled ← settle options
        { buffer with items := buffer.items.eraseIdxIfInBounds index }
      return (some buffer.items[index], settled) := by
  simp [removeAt, Array.getElem?_eq_getElem inside]

variable [LawfulAllocator σ α]

open Depot (Ensures)

theorem ensures_reclaim (limit : Nat) (buffer : Buffer α) (clear : Bool) :
    Ensures (σ := σ) limit buffer.storage (Depot.reclaim buffer clear) (fun _ => 0)
      (fun _ => True) := by
  unfold Depot.reclaim
  split
  · rename_i stored
    rw [storage_of_pos stored]
    exact Depot.ensures_release buffer clear
  · rename_i vacant
    exact Ensures.pure (if_pos (by omega)) trivial

theorem ensures_start (options : Options) (asked : Nat) :
    Ensures (σ := σ) options.segmentCapacity 0 (start options asked : Depot.Step σ (Buffer α))
      storage (fun buffer => buffer.items = #[] ∧
        min asked options.segmentCapacity ≤ buffer.capacity) := by
  unfold start
  dsimp only
  split
  · rename_i none
    exact Ensures.pure rfl ⟨rfl, Nat.le_of_eq none⟩
  · rename_i some
    apply (Depot.ensures_rent (by omega) (Nat.min_le_right ..)).weaken
    intro buffer lent
    exact ⟨(storage_of_pos (by omega)).symm, lent⟩

theorem ensures_regrow {options : Options} {capacity : Nat} (positive : 1 ≤ capacity)
    (bound : capacity ≤ options.segmentCapacity) (buffer : Buffer α) :
    Ensures (σ := σ) options.segmentCapacity buffer.storage (buffer.regrow options capacity)
      storage (fun grown => grown.items = buffer.items ∧ capacity ≤ grown.capacity) := by
  apply ((Depot.ensures_rent (σ := σ) (α := α) positive bound).beside buffer.storage).bind
  intro grown enough
  have back := (ensures_reclaim (σ := σ) options.segmentCapacity buffer.cleared
    options.clearsOnReturn).frame {grown.capacity}
  rw [storage_of_capacity (capacity_cleared buffer), add_comm] at back
  refine back.bind fun _ _ => Ensures.pure ?_ ⟨?_, enough.2⟩
  · rw [zero_add, storage_mk, storage_of_pos (by omega)]
  · simp [enough.1]

theorem ensures_makeRoom {options : Options} {buffer : Buffer α}
    (room : buffer.size < options.segmentCapacity) (fits : buffer.Fits) :
    Ensures (σ := σ) options.segmentCapacity buffer.storage (buffer.makeRoom options) storage
      (fun roomy => roomy.items = buffer.items ∧ buffer.size < roomy.capacity) := by
  unfold makeRoom
  split
  · rename_i spare
    exact Ensures.pure rfl ⟨rfl, spare⟩
  · rename_i taken
    unfold Fits at fits
    refine (ensures_regrow (by omega) (Nat.min_le_right ..) buffer).weaken
      fun grown done => ⟨rfl, done.1, ?_⟩
    have := done.2
    omega

theorem ensures_push {options : Options} {buffer : Buffer α} (x : α)
    (room : buffer.size < options.segmentCapacity) (fits : buffer.Fits) :
    Ensures (σ := σ) options.segmentCapacity buffer.storage (buffer.push options x) storage
      (fun longer => longer.toList = buffer.toList ++ [x] ∧
        longer.Filled options.segmentCapacity) := by
  simp only [push, isFull_eq_false_iff.mpr room, Bool.false_eq_true, if_false]
  refine (ensures_makeRoom room fits).map fun roomy done => ⟨rfl, ?_, ?_⟩
  · simp [toList, done.1]
  · have spare := done.2
    refine ⟨?_, ?_, ?_⟩ <;>
      simp only [Fits, size, done.1, Array.size_push] at room spare ⊢ <;> omega

theorem ensures_insert {options : Options} {buffer : Buffer α} {index : Nat} (x : α)
    (room : buffer.size < options.segmentCapacity) (fits : buffer.Fits)
    (inside : index ≤ buffer.size) :
    Ensures (σ := σ) options.segmentCapacity buffer.storage (buffer.insert options index x) storage
      (fun longer => longer.toList = buffer.toList.insertIdx index x ∧
        longer.Filled options.segmentCapacity) := by
  have bounds : index ≤ buffer.items.size := inside
  simp only [insert, isFull_eq_false_iff.mpr room, Bool.false_eq_true, if_false,
    Nat.not_lt.mpr inside]
  refine (ensures_makeRoom room fits).map fun roomy done => ⟨rfl, ?_, ?_⟩
  · simp [toList, done.1, Array.insertIdxIfInBounds, bounds, Array.toList_insertIdx]
  · have spare := done.2
    refine ⟨?_, ?_, ?_⟩ <;>
      simp only [Fits, size, done.1, Array.insertIdxIfInBounds, bounds, dite_true,
        Array.size_insertIdx] at room spare ⊢ <;> omega

/-- Storage in which nothing is left goes back; any other stays as it is. -/
theorem ensures_settle (options : Options) (buffer : Buffer α) :
    Ensures (σ := σ) options.segmentCapacity buffer.storage (buffer.settle options) storage
      (fun settled => settled.items = buffer.items ∧ (buffer.Fits → settled.Fits) ∧
        (0 < buffer.size → settled = buffer) ∧ (buffer.size = 0 → settled = {})) := by
  cases empty : buffer.isEmpty with
  | false =>
    have nonempty := isEmpty_eq_false_iff.mp empty
    rw [settle_of_nonempty nonempty]
    exact Ensures.pure rfl ⟨rfl, id, fun _ => rfl, fun zero => absurd zero (by omega)⟩
  | true =>
    have noItems := isEmpty_iff.mp empty
    simp only [settle, empty, if_true]
    refine (ensures_reclaim _ buffer options.clearsOnReturn).map fun _ _ => ⟨rfl, ?_⟩
    simp [noItems, Fits, size]

theorem ensures_fill {options : Options} {buffer : Buffer α} {count : Nat} (x : α)
    (room : buffer.size + count ≤ options.segmentCapacity) (some : count ≠ 0) :
    Ensures (σ := σ) options.segmentCapacity buffer.storage (buffer.fill options count x) storage
      (fun longer => longer.toList = buffer.toList ++ List.replicate count x ∧
        longer.Filled options.segmentCapacity) := by
  have filled {storage : Buffer α} (same : storage.items = buffer.items)
      (spare : buffer.size + count ≤ storage.capacity) :
      ({ storage with items := storage.items ++ Array.replicate count x } : Buffer α).Filled
        options.segmentCapacity := by
    have size : (storage.items ++ Array.replicate count x).size = buffer.size + count := by
      rw [Array.size_append, Array.size_replicate, same]
      rfl
    refine ⟨?_, ?_, ?_⟩ <;> simp only [Fits, Buffer.size, size] at spare room ⊢ <;> omega
  simp only [fill, Nat.not_lt.mpr room, if_false]
  split
  · refine (ensures_regrow (by omega) room buffer).map fun roomy done =>
      ⟨rfl, ?_, filled done.1 done.2⟩
    simp [toList, done.1]
  · rename_i spare
    exact Ensures.pure rfl ⟨by simp [toList], filled rfl (Nat.not_lt.mp spare)⟩

end Segmented.Buffer
