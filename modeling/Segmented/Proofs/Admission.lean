import Segmented.Proofs.Layout
import Segmented.Proofs.Restore
import Segmented.Proofs.WellFormed

/-! Which snapshots can be restored, what comes of them, and which check turns the others away. -/

namespace Segmented

variable {σ ω α : Type}

/-- The number of arrays that so many elements need: one for each segment, and one for none. -/
def Metadata.needed (metadata : Metadata) : Nat :=
  max 1 ((metadata.count + metadata.segmentCapacity - 1) / metadata.segmentCapacity)

/-- The number of elements in the segment of the given index: as many as it can hold, of those that
the segments before it leave. -/
def Metadata.share (metadata : Metadata) (index : Nat) : Nat :=
  min metadata.segmentCapacity (metadata.count - index * metadata.segmentCapacity)

/-- The stated segment capacity is a power of two from 16 to 2^20. -/
def Metadata.Supported (metadata : Metadata) : Prop :=
  16 ≤ metadata.segmentCapacity ∧ metadata.segmentCapacity ≤ 2 ^ 20 ∧
    ∃ shift, metadata.segmentCapacity = 2 ^ shift

theorem Metadata.supported_iff (metadata : Metadata) :
    metadata.Supported ↔ SupportedCapacity metadata.segmentCapacity := by
  unfold Supported SupportedCapacity
  rw [Nat.one_shiftLeft, Nat.one_shiftLeft]
  refine and_congr_right fun _ => and_congr_right fun _ => ?_
  constructor
  · rintro ⟨shift, power⟩
    rw [power, Nat.log2_two_pow]
  · intro power
    exact ⟨_, power.symm⟩

namespace Snapshot

/-- The source consists of a metadata record and an array for some indices. `asked` is the place
after requests for the arrays of the listed indices, in order. -/
structure Presents [reader : Source ω α] (source : ω) (metadata : Metadata)
    (array? : Nat → Option (Array α)) (asked : List Nat → ω) : Prop where
  metadata : reader.readMetadata.run.run source = (.ok metadata, asked [])
  array : ∀ earlier index, (reader.readArray index).run.run (asked earlier) =
    (.ok (array? index), asked (earlier ++ [index]))

variable {metadata : Metadata} {array? : Nat → Option (Array α)}

/-- There is an array of the given index with enough elements for its segment. -/
def Enough (metadata : Metadata) (array? : Nat → Option (Array α)) (index : Nat) : Prop :=
  ∃ items, array? index = some items ∧ metadata.share index ≤ items.size

/-- The elements that the array of the given index gives to its segment. -/
def part (metadata : Metadata) (array? : Nat → Option (Array α)) (index : Nat) : List α :=
  ((array? index).getD #[]).toList.take (metadata.share index)

/-- Why the array of the given index cannot fill its segment. -/
inductive Falls (metadata : Metadata) (array? : Nat → Option (Array α)) (index : Nat) :
    SnapshotError → Prop
  | missing (none : array? index = none) : Falls metadata array? index (.missingArray index)
  | undersized {items : Array α} (here : array? index = some items)
      (short : items.size < metadata.share index) :
      Falls metadata array? index (.undersizedArray index (metadata.share index) items.size)

/-- All that a snapshot has to satisfy. -/
structure Admits (metadata : Metadata) (array? : Nat → Option (Array α)) : Prop where
  capacity : metadata.Supported
  segments : metadata.segments = metadata.needed
  arrays : ∀ index < metadata.needed, Enough metadata array? index

/-- The error of the first check that fails, and the arrays that have been asked for until then. -/
inductive Rejects (metadata : Metadata) (array? : Nat → Option (Array α)) :
    SnapshotError → List Nat → Prop
  | capacity (unsupported : ¬metadata.Supported) :
      Rejects metadata array? (.invalidFormat (.unsupportedCapacity metadata.segmentCapacity)) []
  | segments (capacity : metadata.Supported) (mismatch : metadata.segments ≠ metadata.needed) :
      Rejects metadata array?
        (.invalidFormat (.segmentMismatch metadata.segments metadata.count metadata.needed)) []
  | array (capacity : metadata.Supported) (segments : metadata.segments = metadata.needed)
      {index : Nat} (counted : index < metadata.needed)
      (earlier : ∀ other < index, Enough metadata array? other) {error : SnapshotError}
      (falls : Falls metadata array? index error) :
      Rejects metadata array? error (List.range (index + 1))

theorem Falls.not_enough {index : Nat} {error : SnapshotError}
    (falls : Falls metadata array? index error) : ¬Enough metadata array? index := by
  rintro ⟨items, found, enough⟩
  cases falls with
  | missing none => cases none.symm.trans found
  | undersized here short =>
    cases here.symm.trans found
    exact Nat.not_le.mpr short enough

theorem Rejects.not_admits {error : SnapshotError} {reads : List Nat}
    (rejects : Rejects metadata array? error reads) : ¬Admits metadata array? := by
  intro admits
  cases rejects with
  | capacity unsupported => exact unsupported admits.capacity
  | segments capacity mismatch => exact mismatch admits.segments
  | array capacity segments counted earlier falls =>
    exact falls.not_enough (admits.arrays _ counted)

/-- How the reading of `count` arrays ends that begins with the one of index `first`. -/
inductive ReadingEnds (metadata : Metadata) (array? : Nat → Option (Array α))
    (asked : List Nat → ω) (first count : Nat) (contents : Array α) :
    Except SnapshotError (Array α) × ω → Prop
  | complete (enough : ∀ index, first ≤ index → index < first + count →
        Enough metadata array? index) :
      ReadingEnds metadata array? asked first count contents
        (.ok (contents ++ ((List.range' first count).flatMap (part metadata array?)).toArray),
          asked (List.range (first + count)))
  | short {index : Nat} (counted : index < first + count)
      (earlier : ∀ other, first ≤ other → other < index → Enough metadata array? other)
      {error : SnapshotError} (falls : Falls metadata array? index error) :
      ReadingEnds metadata array? asked first count contents
        (.error error, asked (List.range (index + 1)))

theorem Enough.onward {first bound : Nat} (here : Enough metadata array? first)
    (later : ∀ index, first + 1 ≤ index → index < bound → Enough metadata array? index) :
    ∀ index, first ≤ index → index < bound → Enough metadata array? index := by
  intro index begun counted
  rcases Nat.eq_or_lt_of_le begun with rfl | after
  · exact here
  · exact later index after counted

theorem append_part {first : Nat} {items : Array α} (here : array? first = some items)
    (contents : Array α) (count : Nat) :
    contents ++ items.take (metadata.share first) ++
        ((List.range' (first + 1) count).flatMap (part metadata array?)).toArray =
      contents ++ ((List.range' first (count + 1)).flatMap (part metadata array?)).toArray := by
  apply Array.ext'
  simp [List.range'_succ, part, here]

/-- Arrays are read one after the other, until one of them falls short. -/
theorem readArrays_ends [reader : Source ω α] {asked : List Nat → ω} {source : ω}
    (presents : Presents source metadata array? asked) (first count : Nat) (contents : Array α) :
    ReadingEnds metadata array? asked first count contents
      ((readArrays first ((List.range' first count).map metadata.share) contents).run.run
        (asked (List.range first))) := by
  induction count generalizing first contents with
  | zero =>
    have ends : ReadingEnds metadata array? asked first 0 contents
        (.ok (contents ++ #[]), asked (List.range first)) :=
      .complete fun index begun counted => absurd counted (Nat.not_lt.mpr begun)
    rw [Array.append_empty] at ends
    exact ends
  | succ count ih =>
    rw [List.range'_succ, List.map_cons, run_readArrays_cons, presents.array, ← List.range_succ]
    have nothing : ∀ other, first ≤ other → other < first → Enough metadata array? other :=
      fun other begun below => absurd below (Nat.not_lt.mpr begun)
    have counted : first < first + (count + 1) := Nat.lt_add_of_pos_right (Nat.succ_pos count)
    cases here : array? first with
    | none => exact .short counted nothing (.missing here)
    | some items =>
      dsimp only
      split
      · rename_i short
        exact .short counted nothing (.undersized here short)
      · rename_i enough
        have filled : Enough metadata array? first := ⟨items, here, Nat.not_lt.mp enough⟩
        have later := ih (first + 1) (contents ++ items.take (metadata.share first))
        have bound : first + 1 + count = first + (count + 1) := Nat.add_right_comm ..
        generalize (readArrays (ω := ω) (α := α) (first + 1) _ _).run.run _ = ended at later ⊢
        cases later with
        | complete enough =>
          rw [append_part here, bound]
          rw [bound] at enough
          exact .complete (filled.onward enough)
        | short counted earlier falls => exact .short (bound ▸ counted) (filled.onward earlier) falls

/-! ### What is laid out -/

/-- The segments before the last are full, and the last has what they leave. -/
theorem layout_eq_shares (some : metadata.count ≠ 0) (positive : 0 < metadata.segmentCapacity) :
    Sequence.layout metadata.segmentCapacity metadata.count =
      (List.range metadata.needed).map metadata.share := by
  obtain ⟨before, counted⟩ := Nat.exists_eq_succ_of_ne_zero some
  have parts := Nat.div_add_mod before metadata.segmentCapacity
  have remainder := Nat.mod_lt before positive
  have needed : metadata.needed = before / metadata.segmentCapacity + 1 := by
    have total : metadata.count + metadata.segmentCapacity - 1 =
        before + metadata.segmentCapacity := by omega
    rw [Metadata.needed, total, Nat.add_div_right _ positive]
    exact Nat.max_eq_right (Nat.succ_pos _)
  have full : ∀ index ∈ List.range (before / metadata.segmentCapacity),
      metadata.share index = metadata.segmentCapacity := by
    intro index member
    have below := Nat.mul_le_mul_right metadata.segmentCapacity (List.mem_range.mp member)
    rw [Nat.succ_mul, Nat.mul_comm (before / _)] at below
    exact Nat.min_eq_left (by omega)
  have last : metadata.share (before / metadata.segmentCapacity) =
      before % metadata.segmentCapacity + 1 := by
    rw [Metadata.share, Nat.mul_comm (before / _)]
    omega
  rw [needed, List.range_succ, List.map_append, List.map_congr_left full, List.map_singleton, last,
    Sequence.layout, if_neg some, counted, Nat.succ_sub_one, List.map_const', List.length_range]

theorem LaidOut.sizes_eq {options : Options} {laid : Sequence α}
    (out : LaidOut metadata options laid)
    (capacity : options.segmentCapacity = metadata.segmentCapacity) :
    sizes laid = (List.range metadata.needed).map metadata.share := by
  have positive : 0 < metadata.segmentCapacity := capacity ▸ options.segmentCapacity_pos
  unfold sizes Sequence.isEmpty
  rw [out.valid.sizes_eq_layout, out.length, out.options, capacity]
  by_cases none : metadata.count = 0
  · have needed : metadata.needed = 1 := by
      rw [Metadata.needed, none, Nat.div_eq_of_lt (by omega)]
      rfl
    rw [needed]
    simp [none, Metadata.share]
  · rw [if_neg (by simpa using none), layout_eq_shares none positive]

theorem LaidOut.segmentCount_eq {options : Options} {laid : Sequence α}
    (out : LaidOut metadata options laid)
    (capacity : options.segmentCapacity = metadata.segmentCapacity) :
    max laid.segmentCount 1 = metadata.needed := by
  rw [(Sequence.wellFormed_of_valid out.valid).count, out.length, out.options, capacity,
    Nat.max_comm]
  rfl

/-! ### The whole restoration -/

/-- How a restoration ends: with the elements that the arrays give to their segments and the stored
version, or with the error of the first check that fails. -/
inductive RestorationEnds (metadata : Metadata) (array? : Nat → Option (Array α))
    (asked : List Nat → ω) : Except SnapshotError (Sequence α) × ω → Prop
  | restored (admits : Admits metadata array?) {s : Sequence α} (live : s.disposed = false)
      (elements : s.toList = (List.range metadata.needed).flatMap (part metadata array?))
      (version : s.version = metadata.version) :
      RestorationEnds metadata array? asked (.ok s, asked (List.range metadata.needed))
  | rejected {error : SnapshotError} {reads : List Nat}
      (rejects : Rejects metadata array? error reads) :
      RestorationEnds metadata array? asked (.error error, asked reads)

variable [Allocator σ α] [LawfulAllocator σ α] [Inhabited α] [reader : Source ω α]

theorem restore_ends {asked : List Nat → ω} {source : ω}
    (presents : Presents source metadata array? asked) (depot : Depot σ)
    (sound : LawfulAllocator.Sound depot.allocator) :
    RestorationEnds metadata array? asked ((restore source).run depot).1 := by
  unfold restore
  rw [presents.metadata]
  dsimp only
  by_cases supported : SupportedCapacity metadata.segmentCapacity
  · obtain ⟨options, accepted⟩ : ∃ options, metadata.options = .ok options := ⟨_, dif_pos supported⟩
    have capacity := metadata.supported_iff.mpr supported
    have same := capacity_of_options accepted
    rw [accepted]
    dsimp only
    obtain ⟨-, laid, out, outcome⟩ := ensures_fill (α := α) metadata options (asked []) depot sound
    rw [Outcome, out.segmentCount_eq same, out.sizes_eq same, List.range_eq_range'] at outcome
    generalize ((fill metadata options (asked [])).run depot).1 = answer at outcome ⊢
    split at outcome
    · rename_i segments
      have ends := readArrays_ends presents 0 metadata.needed #[]
      change ReadingEnds metadata array? asked 0 metadata.needed #[]
        ((readArrays 0 _ #[]).run.run (asked [])) at ends
      generalize (readArrays (ω := ω) (α := α) 0 _ #[]).run.run (asked []) = ended at ends outcome
      cases ends with
      | complete enough =>
        obtain ⟨s, rfl, made, version, elements⟩ := outcome
        rw [Nat.zero_add] at enough ⊢
        refine .restored ⟨capacity, segments, fun index => enough index (Nat.zero_le _)⟩ made.live
          ?_ version
        rw [Sequence.toList, elements, Array.empty_append, List.range_eq_range']
      | short counted earlier falls =>
        rw [outcome]
        rw [Nat.zero_add] at counted
        exact .rejected (.array capacity segments counted
          (fun other => earlier other (Nat.zero_le _)) falls)
    · rename_i mismatch
      rw [outcome]
      exact .rejected (.segments capacity mismatch)
  · have options : metadata.options =
        .error (.invalidFormat (.unsupportedCapacity metadata.segmentCapacity)) :=
      dif_neg supported
    rw [options]
    exact .rejected (.capacity (mt metadata.supported_iff.mp supported))

/-- A restoration succeeds just in case the snapshot satisfies every check. Then its elements are
those that the arrays give to their segments, and its version is the stored one. Otherwise the error
is that of the first check that fails, no array after it is asked for, and all that was rented has
gone back. -/
theorem restores_iff_admits {asked : List Nat → ω} {source : ω}
    (presents : Presents source metadata array? asked) (depot : Depot σ)
    (sound : LawfulAllocator.Sound depot.allocator) :
    let run := (restore (α := α) source).run depot
    ((∃ s, run.1.1 = .ok s) ↔ Admits metadata array?) ∧
      (∀ s, run.1.1 = .ok s → s.disposed = false ∧ s.version = metadata.version ∧
        s.toList = (List.range metadata.needed).flatMap (part metadata array?) ∧
        run.1.2 = asked (List.range metadata.needed)) ∧
      ∀ error, run.1.1 = .error error → ∃ reads, Rejects metadata array? error reads ∧
        run.1.2 = asked reads ∧ Released depot run.2 := by
  intro run
  have ends : RestorationEnds metadata array? asked run.1 := restore_ends presents depot sound
  have released (error : SnapshotError) (failed : run.1.1 = .error error) :
      Released depot run.2 := released_of_failed sound failed
  generalize run.1 = answer at ends released
  cases ends with
  | restored admits live elements version =>
    refine ⟨⟨fun _ => admits, fun _ => ⟨_, rfl⟩⟩, ?_, ?_⟩
    · rintro s ⟨⟩
      exact ⟨live, version, elements, rfl⟩
    · intro error failed
      cases failed
  | rejected rejects =>
    refine ⟨⟨?_, fun admits => absurd admits rejects.not_admits⟩, ?_, ?_⟩
    · rintro ⟨s, ⟨⟩⟩
    · intro s restored
      cases restored
    · rintro error ⟨⟩
      exact ⟨_, rejects, rfl, released _ rfl⟩

end Snapshot

/-- A store with metadata presents it and its arrays, and is not changed by requests. -/
theorem Store.presents {store : Store α} {metadata : Metadata}
    (stored : store.metadata = some metadata) :
    Snapshot.Presents store metadata (fun index => store.arrays[index]?) (fun _ => store) where
  metadata := by
    obtain ⟨_, arrays⟩ := store
    cases stored
    rfl
  array _ _ := rfl

/-- A store whose arrays are longer than their segments is restored, with the rest of them cut. -/
theorem Snapshot.restores_cut_arrays :
    let store : Store Nat :=
      { metadata := some { segmentCapacity := 16, count := 17, version := 5, segments := 2 }
        arrays := #[Array.replicate 18 1, #[2, 3]] }
    ∃ s : Sequence Nat,
      ((restore store).run ({ allocator := ⟨⟩ } : Depot (Heap Nat))).1.1 = .ok s ∧
        s.version = 5 ∧ s.toList = List.replicate 16 1 ++ [2] := by
  intro store
  have stored : store.metadata =
      some { segmentCapacity := 16, count := 17, version := 5, segments := 2 } := rfl
  obtain ⟨decides, restored, -⟩ := restores_iff_admits (Store.presents stored)
    ({ allocator := ⟨⟩ } : Depot (Heap Nat)) trivial
  obtain ⟨s, run⟩ := decides.mpr {
    capacity := ⟨by decide, by decide, 4, rfl⟩
    segments := rfl
    arrays := by
      intro index counted
      have counted : index < 2 := counted
      rcases Nat.lt_succ_iff_lt_or_eq.mp counted with before | rfl
      · obtain rfl := Nat.lt_one_iff.mp before
        exact ⟨_, rfl, by decide⟩
      · exact ⟨_, rfl, by decide⟩ }
  obtain ⟨-, version, elements, -⟩ := restored s run
  exact ⟨s, run, version, elements.trans (by decide)⟩

end Segmented
