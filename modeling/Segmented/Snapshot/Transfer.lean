import Segmented.Sequence.Clear
import Segmented.Sequence.Resize
import Segmented.Snapshot.Metadata

/-! Saving and restoring a sequence. A snapshot is its metadata and then one array for each
segment, in order; a restored sequence is laid out first and filled afterwards. A store keeps a
snapshot in memory. -/

namespace Segmented

/-- A step at a place of storage `ω` that may fail; a failure keeps what was done before it. -/
abbrev Transfer (ω ρ : Type) := ExceptT SnapshotError (StateM ω) ρ

/-- A place that snapshots of sequences of `α` can be written to. -/
class Sink (ω α : Type) where
  writeMetadata : Metadata → Transfer ω Unit
  writeArray : Nat → Array α → Transfer ω Unit

/-- A place that snapshots of sequences of `α` can be read from. -/
class Source (ω α : Type) where
  readMetadata : Transfer ω Metadata
  /-- The array of the given index, if the snapshot has one. -/
  readArray : Nat → Transfer ω (Option (Array α))

namespace Snapshot

variable {σ ω α : Type}

/-- Writes the listed arrays, the first of them with the given index. -/
def writeArrays [Sink ω α] : Nat → List (Array α) → Transfer ω Unit
  | _, [] => pure ()
  | index, items :: rest => do
    Sink.writeArray index items
    writeArrays (index + 1) rest

/-- The arrays of a snapshot: one for each segment, or an empty one if there is none. -/
def arrays (s : Sequence α) : List (Array α) :=
  if s.isEmpty then [#[]] else s.segments.toList.map Buffer.items

/-- Writes the metadata and the arrays of a sequence. -/
def write [sink : Sink ω α] (s : Sequence α) : Transfer ω Unit := do
  sink.writeMetadata s.metadata
  writeArrays 0 (arrays s)

/-- Writes a sequence to a sink, and leaves a notice if all of it could be written. -/
def save [Sink ω α] (s : Sequence α) (sink : ω) :
    Depot.Step σ (Except SnapshotError Unit × ω) := do
  match (write s).run.run sink with
  | (.ok (), sink) =>
    Depot.notify (.serialized s.metadata.count s.metadata.segments)
    return (.ok (), sink)
  | (.error error, sink) => return (.error error, sink)

/-- Reads an array for each of the listed segment sizes, and joins their first elements to that
size. A longer array is cut, a shorter or missing one is an error. -/
def readArrays [Source ω α] : Nat → List Nat → Array α → Transfer ω (Array α)
  | _, [], contents => pure contents
  | index, size :: rest, contents => do
    match ← Source.readArray index with
    | none => throw (.missingArray index)
    | some (items : Array α) =>
      if items.size < size then throw (.undersizedArray index size items.size)
      else readArrays (index + 1) rest (contents ++ items.take size)

/-- The sizes of the arrays that fill a sequence. -/
def sizes (s : Sequence α) : List Nat :=
  if s.isEmpty then [0] else s.segments.toList.map Buffer.size

/-- Lays a sequence out as the metadata says, and fills it from the source. Whatever was laid out
before a failure goes back. -/
def fill [Allocator σ α] [Source ω α] [Inhabited α] (metadata : Metadata) (options : Options)
    (source : ω) : Depot.Step σ (Except SnapshotError (Sequence α) × ω) := do
  let s ← Sequence.ensure metadata.count default { options }
  let needed := max s.segmentCount 1
  if metadata.segments ≠ needed then
    s.discard
    let fault := .segmentMismatch metadata.segments metadata.count needed
    return (.error (.invalidFormat fault), source)
  else
    match (readArrays 0 (sizes s) #[]).run.run source with
    | (.error error, source) =>
      s.discard
      return (.error error, source)
    | (.ok contents, source) =>
      Depot.notify (.deserialized metadata.count needed)
      return (.ok { s.refill contents with version := metadata.version }, source)

/-- Restores a sequence from a source. -/
def restore [Allocator σ α] [reader : Source ω α] [Inhabited α] (source : ω) :
    Depot.Step σ (Except SnapshotError (Sequence α) × ω) := do
  match reader.readMetadata.run.run source with
  | (.error error, source) => return (.error error, source)
  | (.ok metadata, source) =>
    match metadata.options with
    | .error error => return (.error error, source)
    | .ok options => fill metadata options source

end Snapshot

/-! ### In memory -/

/-- The metadata and the arrays of at most one snapshot. -/
structure Store (α : Type) where
  metadata : Option Metadata := none
  arrays : Array (Array α) := #[]

namespace Store

variable {α : Type}

/-- Starts a snapshot; arrays of an earlier one are dropped. -/
def writeMetadata (metadata : Metadata) : Transfer (Store α) Unit :=
  set { metadata := some metadata : Store α }

/-- Appends an array, which has to come in its turn. -/
def writeArray (index : Nat) (items : Array α) : Transfer (Store α) Unit := do
  if index = (← get).arrays.size then
    modify fun store => { store with arrays := store.arrays.push items }
  else
    throw (.invalidFormat (.outOfOrder index))

def readMetadata : Transfer (Store α) Metadata := do
  match (← get).metadata with
  | none => throw (.invalidFormat .noMetadata)
  | some metadata => return metadata

def readArray (index : Nat) : Transfer (Store α) (Option (Array α)) := do
  return (← get).arrays[index]?

instance : Sink (Store α) α := ⟨writeMetadata, writeArray⟩

instance : Source (Store α) α := ⟨readMetadata, readArray⟩

end Store

end Segmented
