import Segmented.Allocator.Pool
import Segmented.Proofs.RoundTrip
import Segmented.Proofs.Twins

/-! A snapshot tells nothing of the history of a sequence. The metadata and the arrays are given by
the segment capacity, the version and the elements alone, whatever the depth of the tree, the
storage of its segments and the options that do not bear on where an element lies. -/

namespace Segmented

variable {σ τ ω α : Type}

namespace Snapshot

/-- The metadata of the sequences with the given segment capacity, version and elements. -/
def description (capacity : Nat) (version : UInt16) (xs : List α) : Metadata where
  segmentCapacity := capacity
  count := xs.length
  version := version
  segments := max (Sequence.layout capacity xs.length).length 1

/-- The arrays of the sequences with the given segment capacity and elements. -/
def cut (capacity : Nat) (xs : List α) : List (Array α) :=
  if xs.isEmpty then [#[]]
  else ((Sequence.layout capacity xs.length).splitLengths xs).map List.toArray

variable {s t : Sequence α}

theorem metadata_eq_description (valid : s.Valid) :
    s.metadata = description s.options.segmentCapacity s.version s.toList := by
  have segments : s.segmentCount =
      (Sequence.layout s.options.segmentCapacity s.toList.length).length := by
    have sizes := congrArg List.length valid.sizes_eq_layout
    rwa [List.length_map, ← Sequence.segmentCount_eq_length, valid.length_eq] at sizes
  rw [Sequence.metadata, description, valid.length_eq, segments]

theorem arrays_eq_cut (valid : s.Valid) :
    arrays s = cut s.options.segmentCapacity s.toList := by
  have empty : s.isEmpty = s.toList.isEmpty := by
    rw [Sequence.isEmpty, valid.length_eq]
    cases s.toList <;> rfl
  have items : s.segments.toList.map Buffer.items =
      (s.segments.toList.map Buffer.toList).map List.toArray := by
    rw [List.map_map]
    rfl
  rw [arrays, cut, empty, items, valid.segments_eq_split]

/-- The metadata and then each of the arrays, with its number, in order. -/
def dictate [sink : Sink ω α] (metadata : Metadata) (arrays : List (Array α)) :
    Transfer ω Unit := do
  sink.writeMetadata metadata
  arrays.zipIdx.forM fun (items, index) => Sink.writeArray index items

theorem writeArrays_eq_forM [Sink ω α] (index : Nat) (arrays : List (Array α)) :
    (writeArrays index arrays : Transfer ω Unit) =
      (arrays.zipIdx index).forM fun (items, index) => Sink.writeArray index items := by
  induction arrays generalizing index with
  | nil => rfl
  | cons items rest ih =>
    rw [writeArrays, ih (index + 1)]
    rfl

/-- What any place gets when the sequence is saved to it is the metadata and then the arrays. A
store holds just these afterwards, and a stream their records, in the room that it has. -/
structure Gives (metadata : Metadata) (arrays : List (Array α)) (s : Sequence α) : Prop where
  toSink {ω : Type} [Sink ω α] : (write s : Transfer ω Unit) = dictate metadata arrays
  answer {σ ω : Type} [Sink ω α] (sink : ω) (depot : Depot σ) :
    ((save s sink).run depot).1 = (dictate metadata arrays).run.run sink
  toStore {σ : Type} (store : Store α) (depot : Depot σ) :
    ((save s store).run depot).1 =
      (.ok (), { metadata := some metadata, arrays := arrays.toArray })
  stream [Codec Metadata] [Codec (Array α)] :
    Records.bytes s = Records.magic ++ [Records.formatVersion] ++ Records.record metadata ++
      arrays.flatMap Records.record
  toWriter {σ : Type} [Codec Metadata] [Codec (Array α)] (fit : Records.Fit s)
    (written : Array UInt8) (depot : Depot σ) :
    ((save s ({ written } : Writer)).run depot).1 =
      (.ok (), { written := written ++ Records.bytes s })

theorem write_eq_dictate [Sink ω α] (s : Sequence α) :
    (write s : Transfer ω Unit) = dictate s.metadata (arrays s) := by
  rw [write, writeArrays_eq_forM]
  rfl

theorem save_fst [Sink ω α] (s : Sequence α) (sink : ω) (depot : Depot σ) :
    ((save s sink).run depot).1 = (dictate s.metadata (arrays s)).run.run sink := by
  rw [← write_eq_dictate]
  unfold save
  rcases (write s).run.run sink with ⟨_ | _, sink⟩ <;> rfl

theorem gives_arrays (s : Sequence α) : Gives s.metadata (arrays s) s where
  toSink := write_eq_dictate s
  answer := save_fst s
  toStore store depot := save_of_write (Store.run_write s store) depot
  stream := by
    intro _ _
    simp only [Records.bytes, List.append_assoc]
  toWriter fit written depot := save_of_write (Records.run_write fit written) depot

end Snapshot

namespace Sequence

open Snapshot (description cut Gives)

variable [BEq α] [Inhabited α] {s t : Sequence α}

/-- Two sequences of the same segment capacity, elements and version, whatever operations they come
from, are saved alike: any sink gets the same metadata and the same arrays in the same order, and a
stream the same bytes. -/
theorem Reachable.saved_alike (reachable : s.Reachable) (reachable' : t.Reachable)
    (capacity : s.options.segmentCapacity = t.options.segmentCapacity)
    (elements : s.toList = t.toList) (version : s.version = t.version) :
    let metadata := description s.options.segmentCapacity s.version s.toList
    let arrays := cut s.options.segmentCapacity s.toList
    s.metadata = metadata ∧ t.metadata = metadata ∧
      Snapshot.arrays s = arrays ∧ Snapshot.arrays t = arrays ∧
      Gives metadata arrays s ∧ Gives metadata arrays t ∧
      ∀ [Codec Metadata] [Codec (Array α)], Records.bytes s = Records.bytes t := by
  intro metadata arrays
  have first : s.metadata = metadata := Snapshot.metadata_eq_description reachable.valid
  have first' : Snapshot.arrays s = arrays := Snapshot.arrays_eq_cut reachable.valid
  have second : t.metadata = metadata := by
    rw [Snapshot.metadata_eq_description reachable'.valid, ← capacity, ← elements, ← version]
  have second' : Snapshot.arrays t = arrays := by
    rw [Snapshot.arrays_eq_cut reachable'.valid, ← capacity, ← elements]
  refine ⟨first, second, first', second', ?_, ?_, ?_⟩
  · rw [← first, ← first']
    exact Snapshot.gives_arrays s
  · rw [← second, ← second']
    exact Snapshot.gives_arrays t
  · intro _ _
    rw [Records.bytes, Records.bytes, first, second, first', second']

/-- Sixteen zeros on two levels, in buffers of a pool that need not be cleared on return. -/
def pooledZeros : Sequence Nat :=
  let hinted : Sequence Nat := withCapacity 5 { flatZeros.options with clearsOnReturn := false }
  let depot : Depot (Pool Nat) := { allocator := { limit := 1 } }
  let grown := ((Edit.extend (List.replicate 17 0)).apply hinted).run depot
  ((Edit.pop.apply grown.1.2).run depot).1.2

theorem zeros_saved_alike :
    let store : Store Nat := { arrays := #[#[1], #[2]] }
    let zeros : Store Nat :=
      { metadata := some { segmentCapacity := 16, count := 16, version := 18, segments := 1 }
        arrays := #[Array.replicate 16 0] }
    let depot : Depot (Heap Nat) := { allocator := ⟨⟩ }
    pooledZeros.depth = 2 ∧ flatZeros.depth = 1 ∧
    pooledZeros.options.clearsOnReturn = false ∧ flatZeros.options.clearsOnReturn = true ∧
    ((Snapshot.save pooledZeros store).run depot).1 = (.ok (), zeros) ∧
    ((Snapshot.save flatZeros store).run depot).1 = (.ok (), zeros) := by
  intro store zeros depot
  -- Nothing goes back to the pool before the last call.
  have reachable : pooledZeros.Reachable :=
    .edit _ _ (Pool.sorted_empty 1) (.edit _ _ (Pool.sorted_empty 1) (.withCapacity 5 _))
  have reachable' : flatZeros.Reachable := reachable_onHeap _
  have same : description pooledZeros.options.segmentCapacity pooledZeros.version
      pooledZeros.toList = { segmentCapacity := 16, count := 16, version := 18, segments := 1 } := by
    decide +kernel
  have same' : cut pooledZeros.options.segmentCapacity pooledZeros.toList =
      [Array.replicate 16 0] := by
    decide +kernel
  obtain ⟨-, -, -, -, first, second, -⟩ := Reachable.saved_alike reachable reachable'
    (by decide +kernel) (by decide +kernel) (by decide +kernel)
  rw [same, same'] at first second
  refine ⟨?_, ?_, ?_, ?_, first.toStore store depot, second.toStore store depot⟩
  all_goals decide +kernel

end Sequence

end Segmented
