import Segmented.Proofs.Rewrite
import Segmented.Snapshot.Transfer

/-! A restoration from any source answers a valid sequence or gives back all it has rented. -/

namespace Segmented.Snapshot

variable {σ ω α : Type}

/-- One array more is read, or the first one missing or too short is the answer. -/
theorem run_readArrays_cons [reader : Source ω α] (index size : Nat) (rest : List Nat)
    (contents : Array α) (source : ω) :
    (readArrays index (size :: rest) contents).run.run source =
      match (reader.readArray index).run.run source with
      | (.error fault, source) => (.error fault, source)
      | (.ok none, source) => (.error (.missingArray index), source)
      | (.ok (some items), source) =>
        if items.size < size then (.error (.undersizedArray index size items.size), source)
        else (readArrays (index + 1) rest (contents ++ items.take size)).run.run source := by
  simp only [readArrays, ExceptT.run_bind, StateT.run_bind]
  cases (reader.readArray index).run.run source with
  | mk answer source' =>
    cases answer with
    | error fault => rfl
    | ok found =>
      cases found with
      | none => rfl
      | some items =>
        change StateT.run (ExceptT.run (if _ then _ else _)) source' = if _ then _ else _
        by_cases short : items.size < size
        · rw [if_pos short, if_pos short]
          rfl
        · rw [if_neg short, if_neg short]

/-- What is read joins to as many elements as the listed sizes ask for. -/
theorem size_of_readArrays [Source ω α] {index : Nat} {sizes : List Nat} {contents joined : Array α}
    {source source' : ω}
    (read : (readArrays index sizes contents).run.run source = (.ok joined, source')) :
    joined.size = contents.size + sizes.sum := by
  induction sizes generalizing index contents source with
  | nil =>
    cases read
    rfl
  | cons size rest ih =>
    rw [run_readArrays_cons] at read
    split at read
    · cases read
    · cases read
    · rename_i items _ _
      split at read
      · cases read
      · rename_i enough
        have taken : (items.take size).size = size := by
          rw [Array.take_eq_extract, Array.size_extract]
          omega
        rw [ih read, Array.size_append, taken, List.sum_cons, Nat.add_assoc]

/-- The storage of what a restoration answers. -/
def storage : Except SnapshotError (Sequence α) → Multiset Nat
  | .ok s => s.storage
  | .error _ => 0

theorem sum_sizes {s : Sequence α} (valid : s.Valid) : (sizes s).sum = s.length := by
  have length := valid.length_eq
  unfold sizes Sequence.isEmpty
  split
  · rename_i empty
    exact (beq_iff_eq.mp empty).symm
  · rw [length, ← Sequence.flatMap_segments, List.length_flatMap]
    rfl

variable [Allocator σ α] [LawfulAllocator σ α]

open Depot (Ensures)

/-- A sequence as it is laid out for a restoration, before or after the source has filled it. -/
structure LaidOut (metadata : Metadata) (options : Options) (s : Sequence α) : Prop where
  valid : s.Valid
  length : s.length = metadata.count
  options : s.options = options
  live : s.disposed = false
  tight : s.Tight

/-- How a restoration ends once a sequence has been laid out. -/
def Outcome [Source ω α] (metadata : Metadata) (options : Options) (source : ω) (laid : Sequence α)
    (answer : Except SnapshotError (Sequence α) × ω) : Prop :=
  if metadata.segments = max laid.segmentCount 1 then
    match (readArrays 0 (sizes laid) #[]).run.run source with
    | (.error fault, source) => answer = (.error fault, source)
    | (.ok contents, source) => ∃ s, answer = (.ok s, source) ∧ LaidOut metadata options s ∧
        s.version = metadata.version ∧ s.toArray = contents
  else
    let fault := .segmentMismatch metadata.segments metadata.count (max laid.segmentCount 1)
    answer = (.error (.invalidFormat fault), source)

theorem LaidOut.of_follows {metadata : Metadata} {options : Options} {laid s : Sequence α}
    {xs : List α} (out : LaidOut metadata options laid) (follows : laid.Follows xs s)
    (length : xs.length = metadata.count) (tight : s.Tight) : LaidOut metadata options s where
  valid := follows.valid
  length := by rw [follows.valid.length_eq, follows.elements, length]
  options := follows.options.trans out.options
  live := follows.disposed.trans out.live
  tight := tight

theorem Outcome.laidOut [Source ω α] {metadata : Metadata} {options : Options} {source : ω}
    {laid s : Sequence α} {answer : Except SnapshotError (Sequence α) × ω}
    (outcome : Outcome metadata options source laid answer) (same : answer.1 = .ok s) :
    LaidOut metadata options s := by
  unfold Outcome at outcome
  split at outcome
  · split at outcome
    · rw [outcome] at same
      cases same
    · obtain ⟨s', rfl, out, -⟩ := outcome
      cases same
      exact out
  · rw [outcome] at same
    cases same

/-- Giving back what was laid out ends a restoration without storage. -/
theorem ensures_abandon {laid : Sequence α} (valid : laid.Valid)
    (failure : Except SnapshotError (Sequence α) × ω) {fault : SnapshotError}
    (failed : failure.1 = .error fault) :
    Ensures (σ := σ) laid.options.segmentCapacity laid.storage (do
        laid.discard
        return failure) (fun answer => storage answer.1) (fun answer => answer = failure) :=
  (Sequence.ensures_discard valid).map fun _ _ => ⟨by rw [failed]; rfl, rfl⟩

variable [reader : Source ω α] [Inhabited α]

theorem ensures_fill (metadata : Metadata) (options : Options) (source : ω) :
    Ensures (σ := σ) (α := α) options.segmentCapacity 0 (fill metadata options source)
      (fun answer => storage answer.1)
      (fun answer => ∃ laid, LaidOut metadata options laid ∧
        Outcome metadata options source laid answer) := by
  have blank := Sequence.valid_empty (α := α) options 2
  apply Ensures.bind (Sequence.ensures_ensure blank metadata.count default)
  intro laid done
  obtain ⟨follows, tight⟩ := done
  have out : LaidOut metadata options laid := by
    refine ⟨follows.valid, ?_, follows.options, follows.disposed, tight fun _ => nofun⟩
    rw [follows.valid.length_eq, follows.elements]
    simp [Sequence.toList_of_root_none]
  obtain rfl := out.options
  dsimp only
  split
  · rename_i mismatch
    refine (ensures_abandon out.valid _ rfl).weaken fun answer same => ⟨rfl, laid, out, ?_⟩
    rw [Outcome, if_neg mismatch]
    exact same
  · rename_i needed
    have needed := Decidable.not_not.mp needed
    cases read : (readArrays 0 (sizes laid) #[] : Transfer ω (Array α)).run.run source with
    | mk answer source' =>
      cases answer with
      | error fault =>
        refine (ensures_abandon out.valid _ rfl).weaken fun answer same => ⟨rfl, laid, out, ?_⟩
        rw [Outcome, if_pos needed, read]
        exact same
      | ok contents =>
        have enough : contents.size = laid.length := by
          rw [size_of_readArrays read, sum_sizes out.valid]
          exact Nat.zero_add _
        obtain ⟨stored, filled⟩ := Sequence.follows_refill out.valid enough
        have regular : Notice.Regular (.deserialized metadata.count (max laid.segmentCount 1)) :=
          fun _ => nofun
        apply (Depot.ensures_notify (σ := σ) (α := α) regular laid.storage).map
        intro _ _
        refine ⟨stored, laid, out, ?_⟩
        rw [Outcome, if_pos needed, read]
        refine ⟨_, rfl, out.of_follows (filled.versioned _) ?_ ?_, rfl, Array.ext' filled.elements⟩
        · rw [Array.length_toList, enough, out.length]
        · exact out.valid.tight_refill out.tight contents

/-- The segment capacity that a source declares, or zero if it declares nothing. -/
def declared (reader : Source ω α) (source : ω) : Nat :=
  match reader.readMetadata.run.run source with
  | (.ok metadata, _) => metadata.segmentCapacity
  | (.error _, _) => 0

theorem capacity_of_options {metadata : Metadata} {options : Options}
    (supported : metadata.options = .ok options) :
    options.segmentCapacity = metadata.segmentCapacity := by
  unfold Metadata.options at supported
  split at supported <;> cases supported
  rfl

/-- All that has been rented between the two depots has gone back. -/
def Released (depot depot' : Depot σ) : Prop :=
  ∃ calls : List Call, depot'.calls.toList = depot.calls.toList ++ calls ∧
    Call.replay calls 0 = some 0

/-- Whatever a source serves, the answer is a valid sequence or none that holds storage. -/
theorem ensures_restore (source : ω) :
    Ensures (σ := σ) (α := α) (declared reader source) 0 (restore source)
      (fun answer => storage answer.1) (fun answer => ∀ s, answer.1 = .ok s → s.Valid) := by
  unfold declared restore
  cases (reader.readMetadata.run.run source) with
  | mk answer source' =>
    cases answer with
    | error fault => exact Ensures.pure rfl fun _ => nofun
    | ok metadata =>
      dsimp only
      cases supported : metadata.options with
      | error fault => exact Ensures.pure rfl fun _ => nofun
      | ok options =>
        rw [← capacity_of_options supported]
        refine (ensures_fill metadata options source').weaken fun answer done => ⟨rfl, ?_⟩
        obtain ⟨laid, out, outcome⟩ := done
        exact fun s same => (outcome.laidOut same).valid

/-- What a restoration answers has been laid out for it. -/
theorem exists_laidOut {source : ω} {depot : Depot σ}
    (sound : LawfulAllocator.Sound depot.allocator) {s : Sequence α}
    (restored : ((restore source).run depot).1.1 = .ok s) :
    ∃ metadata options, LaidOut metadata options s := by
  unfold restore at restored
  cases read : reader.readMetadata.run.run source with
  | mk answer source' =>
    rw [read] at restored
    cases answer with
    | error fault => cases restored
    | ok metadata =>
      dsimp only at restored
      cases supported : metadata.options with
      | error fault =>
        rw [supported] at restored
        cases restored
      | ok options =>
        rw [supported] at restored
        obtain ⟨-, laid, -, outcome⟩ := ensures_fill (α := α) metadata options source' depot sound
        exact ⟨metadata, options, outcome.laidOut restored⟩

/-- A restoration that fails, wherever it does, gives back all it has rented. -/
theorem released_of_failed {source : ω} {depot : Depot σ}
    (sound : LawfulAllocator.Sound depot.allocator) {fault : SnapshotError}
    (failed : ((restore (α := α) source).run depot).1.1 = .error fault) :
    Released depot ((restore (α := α) source).run depot).2 := by
  obtain ⟨calls, record, -, account⟩ := (ensures_restore (α := α) source depot sound).1.calls
  have none : storage ((restore (α := α) source).run depot).1.1 = 0 := by
    rw [failed]
    rfl
  exact ⟨calls, record, account.trans (congrArg some none)⟩

end Segmented.Snapshot
