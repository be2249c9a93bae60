import Segmented.Proofs.Layout
import Segmented.Proofs.Restore
import Segmented.Proofs.WellFormed
import Segmented.Snapshot.Records
import Segmented.Snapshot.Wire

/-! A sequence that is saved and restored comes back: in memory, and through a stream of bytes. -/

namespace Segmented

variable {σ ω α : Type}

/-- A transfer goes on from where a first part of it has succeeded. -/
theorem Transfer.run_bind {ρ τ : Type} {first : Transfer ω ρ} {next : ρ → Transfer ω τ}
    {place place' : ω} {x : ρ} (run : first.run.run place = (.ok x, place')) :
    (first >>= next).run.run place = (next x).run.run place' := by
  rw [ExceptT.run_bind, StateT.run_bind, run]
  rfl

namespace Snapshot

/-- The second sequence is a live one with what a snapshot keeps of the first: its elements, its
version, its segment capacity and the sizes of its segments, on as few levels as can hold them. -/
structure Mirrors (s t : Sequence α) : Prop where
  live : t.disposed = false
  elements : t.toArray = s.toArray
  version : t.version = s.version
  capacity : t.options.segmentCapacity = s.options.segmentCapacity
  sizes : t.segments.toList.map Buffer.size = s.segments.toList.map Buffer.size
  depth : IsLeast {levels | s.length ≤ Sequence.room s.options.segmentCapacity levels} t.depth

/-- The source yields the listed arrays one after the other, from the given index on. -/
inductive Serves [reader : Source ω α] : Nat → ω → List (Array α) → ω → Prop
  | nil (index : Nat) (source : ω) : Serves index source [] source
  | cons {index : Nat} {source source' source'' : ω} {items : Array α} {rest : List (Array α)}
      (first : (reader.readArray index).run.run source = (.ok (some items), source'))
      (later : Serves (index + 1) source' rest source'') :
      Serves index source (items :: rest) source''

theorem Serves.readArrays_eq [Source ω α] {index : Nat} {source source' : ω}
    {arrays : List (Array α)} (serves : Serves index source arrays source') (contents : Array α) :
    (readArrays index (arrays.map Array.size) contents).run.run source =
      (.ok (contents ++ (arrays.flatMap Array.toList).toArray), source') := by
  induction serves generalizing contents with
  | nil =>
    rw [List.flatMap_nil, Array.append_empty]
    rfl
  | cons first later ih =>
    rename_i items rest
    have joined : contents ++ items.take items.size ++ (rest.flatMap Array.toList).toArray =
        contents ++ ((items :: rest).flatMap Array.toList).toArray := by
      apply Array.ext'
      simp
    rw [List.map_cons, run_readArrays_cons, first]
    dsimp only
    rw [if_neg (Nat.lt_irrefl _), ih, joined]

variable {s : Sequence α}

theorem sizes_arrays (s : Sequence α) : (arrays s).map Array.size = sizes s := by
  unfold arrays sizes
  split
  · rfl
  · rw [List.map_map]
    rfl

theorem sizes_congr {t : Sequence α} (valid : s.Valid) (valid' : t.Valid)
    (length : t.length = s.length)
    (capacity : t.options.segmentCapacity = s.options.segmentCapacity) : sizes t = sizes s := by
  unfold sizes Sequence.isEmpty
  rw [length, valid.sizes_congr valid' length capacity]

theorem arrays_flatten (valid : s.Valid) :
    ((arrays s).flatMap Array.toList).toArray = s.toArray := by
  apply Array.ext'
  unfold arrays Sequence.isEmpty
  split
  · rename_i empty
    have none : s.toList = [] := List.eq_nil_of_length_eq_zero (by
      rw [← valid.length_eq]
      exact beq_iff_eq.mp empty)
    exact none.symm
  · rw [List.flatMap_map]
    exact s.flatMap_segments

variable [Allocator σ α] [LawfulAllocator σ α] [Inhabited α]

/-- A source that serves the metadata of a valid sequence yields what its arrays join to, or the
error that their reading meets. -/
theorem exists_outcome [reader : Source ω α] (valid : s.Valid) {source source' : ω}
    (metadata : reader.readMetadata.run.run source = (.ok s.metadata, source')) (depot : Depot σ)
    (sound : LawfulAllocator.Sound depot.allocator) :
    ∃ options, options.segmentCapacity = s.options.segmentCapacity ∧
      match (readArrays 0 ((arrays s).map Array.size) #[]).run.run source' with
      | (.error fault, source'') => ((restore source).run depot).1 = (.error fault, source'')
      | (.ok contents, source'') => ∃ t, ((restore source).run depot).1 = (.ok t, source'') ∧
          LaidOut s.metadata options t ∧ t.version = s.version ∧ t.toArray = contents := by
  have supported : s.metadata.options = .ok { segmentCapacity := s.options.segmentCapacity
                                              supported := s.options.supported } :=
    dif_pos s.options.supported
  refine ⟨{ segmentCapacity := s.options.segmentCapacity, supported := s.options.supported }, rfl,
    ?_⟩
  obtain ⟨-, laid, out, outcome⟩ := ensures_fill (α := α) s.metadata
    { segmentCapacity := s.options.segmentCapacity, supported := s.options.supported } source'
    depot sound
  have capacity : laid.options.segmentCapacity = s.options.segmentCapacity := by
    rw [out.options]
  have needed : s.metadata.segments = max laid.segmentCount 1 := by
    rw [valid.segmentCount_congr out.valid out.length capacity]
    rfl
  rw [Outcome, if_pos needed, sizes_congr valid out.valid out.length capacity, ← sizes_arrays]
    at outcome
  unfold restore
  rw [metadata]
  dsimp only
  rw [supported]
  exact outcome

/-- A source that serves the metadata and the arrays of a valid sequence yields it again. -/
theorem exists_restored [reader : Source ω α] (valid : s.Valid) {source source' source'' : ω}
    (metadata : reader.readMetadata.run.run source = (.ok s.metadata, source'))
    (serves : Serves 0 source' (arrays s) source'') (depot : Depot σ)
    (sound : LawfulAllocator.Sound depot.allocator) :
    ∃ t, ((restore source).run depot).1 = (.ok t, source'') ∧ Mirrors s t := by
  obtain ⟨options, same, outcome⟩ := exists_outcome valid metadata depot sound
  rw [serves.readArrays_eq] at outcome
  obtain ⟨t, run, made, version, elements⟩ := outcome
  have capacity : t.options.segmentCapacity = s.options.segmentCapacity := by
    rw [made.options, same]
  have length : t.length = s.length := made.length
  refine ⟨t, run, made.live, ?_, version, capacity,
    valid.sizes_congr made.valid length capacity, ?_, fun levels enough => ?_⟩
  · rw [elements, Array.empty_append, arrays_flatten valid]
  · have enough := made.valid.length_le_room
    rwa [length, capacity] at enough
  · refine made.valid.depth_le made.tight ?_
    rwa [length, capacity]

end Snapshot

/-! ### In memory -/

namespace Store

open Snapshot (write writeArrays Serves)

theorem run_writeArray (store : Store α) (items : Array α) :
    (writeArray store.arrays.size items).run.run store =
      (.ok (), { store with arrays := store.arrays.push items }) := by
  change StateT.run (ExceptT.run (if _ then _ else _)) store = _
  rw [if_pos rfl]
  rfl

theorem run_writeArrays (items : List (Array α)) (store : Store α) :
    (writeArrays (ω := Store α) store.arrays.size items).run.run store =
      (.ok (), { store with arrays := store.arrays ++ items.toArray }) := by
  induction items generalizing store with
  | nil =>
    rw [Array.append_empty]
    rfl
  | cons first rest ih =>
    have later := ih { store with arrays := store.arrays.push first }
    rw [Array.size_push] at later
    refine (Transfer.run_bind (store.run_writeArray first)).trans (later.trans ?_)
    simp

/-- Saving keeps nothing of what the store held before. -/
theorem run_write (s : Sequence α) (store : Store α) :
    (write (ω := Store α) s).run.run store =
      (.ok (), { metadata := some s.metadata, arrays := (Snapshot.arrays s).toArray }) := by
  refine (run_writeArrays (Snapshot.arrays s) { metadata := some s.metadata }).trans ?_
  rw [Array.empty_append]

theorem serves (store : Store α) (index : Nat) :
    Serves index store (store.arrays.toList.drop index) store := by
  generalize remaining : store.arrays.toList.drop index = items
  induction items generalizing index with
  | nil => exact .nil index store
  | cons first rest ih =>
    have here : store.arrays[index]? = some first := by
      rw [← Array.getElem?_toList, ← Nat.add_zero index, ← List.getElem?_drop, remaining]
      rfl
    refine .cons ?_ (ih (index + 1) ?_)
    · rw [← here]
      rfl
    · rw [← List.tail_drop, remaining]
      rfl

end Store

/-! ### As a stream of bytes -/

theorem Writer.write_nil (writer : Writer) : writer.write [] = (.ok (), writer) := by
  obtain ⟨written, _ | room⟩ := writer <;> simp [Writer.write]

/-- Two writes, of which the second is made only if the first succeeds, are one. -/
theorem Writer.write_append (writer : Writer) (first second : List UInt8) :
    writer.write (first ++ second) =
      match writer.write first with
      | (.ok (), writer) => writer.write second
      | (.error fault, writer) => (.error fault, writer) := by
  have joined (written : Array UInt8) (bytes more : List UInt8) :
      written ++ bytes ++ more = written ++ (bytes ++ more) := by
    apply Array.ext'
    simp
  obtain ⟨written, _ | room⟩ := writer
  · simp [write, joined]
  · by_cases whole : first.length ≤ room
    · by_cases more : first.length + second.length ≤ room
      · have fits : second.length ≤ room - first.length := by omega
        simp [write, whole, more, fits, Nat.sub_sub, joined]
      · have short : ¬ second.length ≤ room - first.length := by omega
        simp [write, whole, more, short, joined, List.take_append, List.take_of_length_le]
    · have short : ¬ first.length + second.length ≤ room := by omega
      have none : room - first.length = 0 := by omega
      simp [write, whole, short, List.take_append, none]

namespace Records

open Snapshot (write writeArrays Serves)

section Record

variable {ρ : Type} [Codec ρ]

/-- The bytes of a value; none if it has no byte form. -/
def body (value : ρ) : List UInt8 :=
  match Codec.encode value with
  | .ok bytes => bytes
  | .error _ => []

/-- A value behind the length of its bytes. -/
def record (value : ρ) : List UInt8 := lengthBytes (body value).length ++ body value

/-- The value has a byte form, the length of which fits four bytes. -/
structure Fits (value : ρ) : Prop where
  encodes : Codec.encode value = .ok (body value)
  short : (body value).length ≤ largestRecord

theorem fits_of_encode {value : ρ} {bytes : List UInt8} (encoded : Codec.encode value = .ok bytes)
    (short : bytes.length ≤ largestRecord) : Fits value := by
  have same : body value = bytes := by rw [body, encoded]
  exact ⟨by rw [encoded, same], by rwa [same]⟩

theorem Fits.decodes [LawfulCodec ρ] {value : ρ} (fits : Fits value) :
    Codec.decode (body value) = .ok value :=
  LawfulCodec.decode_of_encode fits.encodes

end Record

/-- The bytes of a snapshot. -/
def bytes [Codec Metadata] [Codec (Array α)] (s : Sequence α) : List UInt8 :=
  magic ++ ([formatVersion] ++ (record s.metadata ++ (Snapshot.arrays s).flatMap record))

theorem lengthOf_lengthBytes {n : Nat} (fits : n ≤ largestRecord) :
    lengthOf (lengthBytes n) = n := by
  have bound : n < 4294967296 := Nat.lt_succ_of_le fits
  simp only [lengthOf, lengthBytes, List.foldr, Nat.toUInt8, UInt8.toNat_ofNat',
    Nat.shiftRight_eq_div_pow]
  omega

/-- What a writer makes of bytes is what becomes of a transfer that puts them. -/
theorem run_put (bytes : List UInt8) (writer : Writer) :
    (put bytes).run.run writer =
      match writer.write bytes with
      | (.ok (), writer) => (.ok (), writer)
      | (.error fault, writer) => (.error (.io fault), writer) := by
  have taken : (modifyGet fun writer : Writer => writer.write bytes :
      Transfer Writer (Except IoFault Unit)).run.run writer =
        (.ok (writer.write bytes).1, (writer.write bytes).2) := rfl
  refine (Transfer.run_bind taken).trans ?_
  rcases writer.write bytes with ⟨_ | _, after⟩ <;> rfl

theorem put_nil : put [] = pure () := by
  apply ExceptT.ext
  funext writer
  change (put []).run.run writer = _
  rw [run_put, Writer.write_nil]
  rfl

theorem put_append (first second : List UInt8) :
    put (first ++ second) = (do put first; put second) := by
  apply ExceptT.ext
  funext writer
  change (put _).run.run writer = StateT.run (ExceptT.run _) writer
  rw [ExceptT.run_bind, StateT.run_bind, run_put, run_put, Writer.write_append]
  rcases writer.write first with ⟨_ | _, after⟩
  · rfl
  · exact (run_put second after).symm

theorem putRecord_eq {ρ : Type} [Codec ρ] {value : ρ} (fits : Fits value) :
    putRecord value = put (record value) := by
  unfold putRecord record
  rw [put_append, fits.encodes]
  exact if_neg (Nat.not_lt.mpr fits.short)

/-- All that is asked for is there. -/
theorem run_read (bytes more : List UInt8) (consumed : Nat) :
    (modifyGet fun reader : Reader => reader.read bytes.length :
        Transfer Reader (Except IoFault (List UInt8))).run.run
          { rest := bytes ++ more, consumed } =
      (.ok (.ok bytes), { rest := more, consumed := consumed + bytes.length }) := by
  have read : Reader.read bytes.length { rest := bytes ++ more, consumed } =
      (.ok bytes, { rest := more, consumed := consumed + bytes.length }) := by
    simp [Reader.read, Reader.allowed]
  change (Except.ok (Reader.read _ _).1, (Reader.read _ _).2) = _
  rw [read]

theorem run_get (bytes more : List UInt8) (consumed : Nat) :
    (get bytes.length).run.run { rest := bytes ++ more, consumed } =
      (.ok bytes, { rest := more, consumed := consumed + bytes.length }) :=
  Transfer.run_bind (run_read bytes more consumed)

theorem run_getRecord {ρ : Type} [Codec ρ] [LawfulCodec ρ] {value : ρ} (fits : Fits value)
    (more : List UInt8) (consumed : Nat) :
    (getRecord : Transfer Reader (Option ρ)).run.run { rest := record value ++ more, consumed } =
      (.ok (some value), { rest := more, consumed := consumed + (record value).length }) := by
  have length : getLength.run.run { rest := record value ++ more, consumed } =
      (.ok (some (body value).length),
        { rest := body value ++ more, consumed := consumed + 4 }) := by
    rw [record, List.append_assoc]
    refine (Transfer.run_bind (run_read (lengthBytes _) _ consumed)).trans ?_
    change (Except.ok (some (lengthOf (lengthBytes _))), _) = _
    rw [lengthOf_lengthBytes fits.short]
    rfl
  refine (Transfer.run_bind length).trans ?_
  refine (Transfer.run_bind (run_get (body value) more (consumed + 4))).trans ?_
  rw [fits.decodes]
  change (Except.ok (some value), _) = _
  rw [record, List.length_append, ← Nat.add_assoc]
  rfl

variable [Codec Metadata] [Codec (Array α)]

theorem writeArrays_eq {arrays : List (Array α)} (fits : ∀ items ∈ arrays, Fits items)
    (index : Nat) :
    writeArrays (ω := Writer) index arrays = put (arrays.flatMap record) := by
  induction arrays generalizing index with
  | nil => exact put_nil.symm
  | cons items rest ih =>
    have later := ih (fun other member => fits other (by simp [member])) (index + 1)
    have first := putRecord_eq (fits items (by simp))
    rw [List.flatMap_cons, put_append, ← first, ← later]
    rfl

/-- Every record of a snapshot of the sequence has a byte form that fits. -/
structure Fit (s : Sequence α) : Prop where
  metadata : Fits s.metadata
  arrays : ∀ items ∈ Snapshot.arrays s, Fits items

/-- A snapshot is written like one run of bytes, whatever the writer has room for. -/
theorem write_eq {s : Sequence α} (fit : Fit s) :
    write (ω := Writer) s = put (bytes s) := by
  have metadata := putRecord_eq fit.metadata
  have arrays := writeArrays_eq fit.arrays 0
  simp only [bytes, put_append, ← metadata, ← arrays]
  simp only [write, Sink.writeMetadata, bind_assoc]

theorem run_write {s : Sequence α} (fit : Fit s) (written : Array UInt8) :
    (write (ω := Writer) s).run.run { written } =
      (.ok (), { written := written ++ bytes s }) := by
  rw [write_eq fit, run_put]
  rfl

theorem run_getMetadata [LawfulCodec Metadata] {metadata : Metadata} (fits : Fits metadata)
    (more : List UInt8) (consumed : Nat) :
    getMetadata.run.run
        { rest := magic ++ ([formatVersion] ++ (record metadata ++ more)), consumed } =
      (.ok metadata, { rest := more, consumed := consumed + 5 + (record metadata).length }) := by
  rw [← List.append_assoc]
  refine (Transfer.run_bind (run_get (magic ++ [formatVersion]) _ consumed)).trans ?_
  rw [if_neg (by decide), if_neg (by decide)]
  exact Transfer.run_bind (run_getRecord fits more _)

theorem serves [LawfulCodec (Array α)] {arrays : List (Array α)}
    (fits : ∀ items ∈ arrays, Fits items) (index consumed : Nat) (more : List UInt8) :
    Serves (ω := Reader) index { rest := arrays.flatMap record ++ more, consumed } arrays
      { rest := more, consumed := consumed + (arrays.flatMap record).length } := by
  induction arrays generalizing index consumed with
  | nil => exact .nil index _
  | cons first rest ih =>
    have later := ih (fun items member => fits items (by simp [member])) (index + 1)
      (consumed + (record first).length)
    rw [List.flatMap_cons, List.append_assoc, List.length_append, ← Nat.add_assoc]
    exact .cons (run_getRecord (fits first (by simp)) _ _) later

end Records

/-! ### Both ways -/

namespace Snapshot

variable {τ : Type} {s : Sequence α}

theorem save_of_write [Sink ω α] {sink sink' : ω}
    (written : (write s).run.run sink = (.ok (), sink')) (depot : Depot σ) :
    ((save s sink).run depot).1 = (.ok (), sink') := by
  unfold save
  rw [written]
  rfl

variable [Allocator τ α] [LawfulAllocator τ α] [Inhabited α]

/-- What a store holds after a sequence has been saved to it is restored to the like of it. -/
theorem exists_restored_from_store (valid : s.Valid) (store : Store α) (depot : Depot σ)
    (depot' : Depot τ) (sound : LawfulAllocator.Sound depot'.allocator) :
    ∃ full t, ((save s store).run depot).1 = (.ok (), full) ∧
      ((restore full).run depot').1 = (.ok t, full) ∧ Mirrors s t := by
  have saved := Store.run_write s store
  generalize here : ({ metadata := some s.metadata, arrays := (arrays s).toArray } : Store α) =
    full at saved
  have metadata : Store.readMetadata.run.run full = (.ok s.metadata, full) := by
    rw [← here]
    rfl
  have items : full.arrays.toList = arrays s := by rw [← here]
  have serves := full.serves 0
  rw [List.drop_zero, items] at serves
  obtain ⟨t, run, mirrors⟩ := exists_restored valid metadata serves depot' sound
  exact ⟨full, t, save_of_write saved depot, run, mirrors⟩

/-- The bytes that a sequence has been saved as, with any others behind them, are restored to the
like of it, and the others are left. -/
theorem exists_restored_from_bytes [Codec Metadata] [Codec (Array α)] [LawfulCodec Metadata]
    [LawfulCodec (Array α)] (valid : s.Valid) (fit : Records.Fit s) (written : Array UInt8)
    (more : List UInt8) (consumed : Nat) (depot : Depot σ) (depot' : Depot τ)
    (sound : LawfulAllocator.Sound depot'.allocator) :
    ∃ (bytes : List UInt8) (t : Sequence α), ((save s ({ written } : Writer)).run depot).1 =
        (.ok (), { written := written ++ bytes }) ∧
      ((restore ({ rest := bytes ++ more, consumed } : Reader)).run depot').1 =
        (.ok t, { rest := more, consumed := consumed + bytes.length }) ∧ Mirrors s t := by
  have header := Records.run_getMetadata fit.metadata ((arrays s).flatMap Records.record ++ more)
    consumed
  have serves := Records.serves fit.arrays 0
    (consumed + 5 + (Records.record s.metadata).length) more
  obtain ⟨t, run, mirrors⟩ := exists_restored valid header serves depot' sound
  have parts : Records.bytes s ++ more = Records.magic ++ ([Records.formatVersion] ++
      (Records.record s.metadata ++ ((arrays s).flatMap Records.record ++ more))) := by
    simp only [Records.bytes, List.append_assoc]
  have total : consumed + 5 + (Records.record s.metadata).length +
      ((arrays s).flatMap Records.record).length = consumed + (Records.bytes s).length := by
    have opening : Records.magic.length = 4 := by decide
    simp only [Records.bytes, List.length_append, List.length_singleton, opening]
    omega
  rw [total, ← parts] at run
  exact ⟨Records.bytes s, t, save_of_write (Records.run_write fit written) depot, run, mirrors⟩

end Snapshot

namespace Sequence

variable {τ : Type} [Allocator τ α] [LawfulAllocator τ α] [BEq α] [Inhabited α]
  [Codec Metadata] [Codec (Array α)] [LawfulCodec Metadata] [LawfulCodec (Array α)]
  {s : Sequence α}

/-- Whatever operations a sequence comes from, both ways of saving it succeed and lead back to the
like of it: through a store with any earlier contents, and through bytes, of which a restoration
takes exactly those that were written. Of the codecs it is asked that they decode what they have
encoded, and of the records that they fit their lengths. -/
theorem Reachable.restored_both_ways (reachable : s.Reachable) (fit : Records.Fit s)
    (store : Store α) (written : Array UInt8) (more : List UInt8) (consumed : Nat)
    (depot : Depot σ) (depot' : Depot τ) (sound : LawfulAllocator.Sound depot'.allocator) :
    (∃ (full : Store α) (t : Sequence α),
      ((Snapshot.save s store).run depot).1 = (.ok (), full) ∧
        ((Snapshot.restore full).run depot').1 = (.ok t, full) ∧ Snapshot.Mirrors s t) ∧
    ∃ (bytes : List UInt8) (t : Sequence α),
      ((Snapshot.save s ({ written } : Writer)).run depot).1 =
          (.ok (), { written := written ++ bytes }) ∧
        ((Snapshot.restore ({ rest := bytes ++ more, consumed } : Reader)).run depot').1 =
          (.ok t, { rest := more, consumed := consumed + bytes.length }) ∧
        Snapshot.Mirrors s t :=
  ⟨Snapshot.exists_restored_from_store reachable.valid store depot depot' sound,
    Snapshot.exists_restored_from_bytes reachable.valid fit written more consumed depot depot'
      sound⟩

end Sequence

/-! ### An example -/

namespace Sequence

open Wire

/-- Thirty-five bytes in three segments, of which there have been four. -/
@[irreducible] def pruned : Sequence UInt8 :=
  onHeap [.extend ((List.range 50).map Nat.toUInt8), .removeAt 3, .truncate 35]

theorem reachable_pruned : pruned.Reachable := by
  unfold pruned
  exact reachable_onHeap _

theorem fit_pruned : Records.Fit pruned where
  metadata := ⟨by decide +kernel, by decide +kernel⟩
  arrays items member := by
    have all : ∀ items ∈ Snapshot.arrays pruned, Codec.encode items = .ok (Records.body items) ∧
        (Records.body items).length ≤ Records.largestRecord := by
      decide +kernel
    exact ⟨(all items member).1, (all items member).2⟩

/-- What is left of a longer sequence comes back from a store that held something else and from
bytes that two others follow. -/
theorem pruned_restored_both_ways :
    let stale : Store UInt8 := { arrays := #[#[9], #[]] }
    let before : Array UInt8 := #[5]
    let depot : Depot (Heap UInt8) := { allocator := ⟨⟩ }
    pruned.segments.toList.map Buffer.size = [16, 16, 3] ∧
    (∃ (full : Store UInt8) (t : Sequence UInt8),
      ((Snapshot.save pruned stale).run depot).1 = (.ok (), full) ∧
        ((Snapshot.restore full).run depot).1 = (.ok t, full) ∧ Snapshot.Mirrors pruned t) ∧
    ∃ (bytes : List UInt8) (t : Sequence UInt8),
      ((Snapshot.save pruned ({ written := before } : Writer)).run depot).1 =
          (.ok (), { written := before ++ bytes }) ∧
        ((Snapshot.restore ({ rest := bytes ++ [1, 2], consumed := 7 } : Reader)).run depot).1 =
          (.ok t, { rest := [1, 2], consumed := 7 + bytes.length }) ∧
        Snapshot.Mirrors pruned t := by
  intro stale before depot
  have sizes : pruned.segments.toList.map Buffer.size = [16, 16, 3] := by decide +kernel
  exact ⟨sizes, Reachable.restored_both_ways reachable_pruned fit_pruned stale before [1, 2] 7
    depot depot trivial⟩

end Sequence

end Segmented
