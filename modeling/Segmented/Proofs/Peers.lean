import Segmented.Proofs.Canonical
import Segmented.Proofs.Custody
import Segmented.Proofs.Depth
import Segmented.Proofs.SearchLast
import Segmented.Sequence.Access
import Segmented.Traversal.Walk

/-! Two sequences with the same contents in trees of the same shape, whatever storage their segments
have and whatever the allocator is told when it gets a buffer back. No call and no reading tells
them apart. -/

namespace Segmented

variable {σ τ α : Type}

namespace Sequence

/-- Both sequences are valid and have the same segment capacity, elements, version, depth and state
of disposal. -/
structure Peers (s t : Sequence α) : Prop where
  valid : s.Valid
  valid' : t.Valid
  capacity : s.options.segmentCapacity = t.options.segmentCapacity
  elements : s.toList = t.toList
  version : s.version = t.version
  depth : s.depth = t.depth
  disposed : s.disposed = t.disposed

variable {s t : Sequence α}

theorem isFlat_eq_depth (s : Sequence α) : s.isFlat = decide (s.depth ≤ 1) := by
  obtain ⟨root⟩ := s
  cases root with
  | none => rfl
  | some root =>
    obtain ⟨level, tree⟩ := root
    cases level with
    | zero => rfl
    | succ level => simp [isFlat, flat?, depth]

theorem flat?_of_deep (deep : 1 < s.depth) : s.flat? = none := by
  have flat := isFlat_eq_depth s
  rw [decide_eq_false (Nat.not_le_of_gt deep)] at flat
  exact Option.not_isSome_iff_eq_none.mp (Bool.eq_false_iff.mp flat)

theorem exists_flat (shallow : s.depth ≤ 1) : ∃ items, s.flat? = some items := by
  have flat := isFlat_eq_depth s
  rw [decide_eq_true shallow] at flat
  exact Option.isSome_iff_exists.mp flat

/-- The least number of elements that needs so many levels. -/
def need (capacity : Nat) : Nat → Nat
  | 0 => 0
  | levels + 1 => room capacity levels + 1

theorem room_lt_succ {capacity : Nat} (positive : 0 < capacity) (levels : Nat) :
    room capacity levels < room capacity (levels + 1) := by
  rcases Nat.eq_zero_or_pos levels with rfl | some
  · exact positive
  · have filled : 0 < room capacity levels := by
      rw [room_of_pos some]
      exact Nat.mul_pos positive (Nat.pow_pos (by decide))
    rw [room_succ some]
    omega

theorem suits_need (s : Sequence α) : s.Suits (need s.options.segmentCapacity s.depth) := by
  unfold Suits
  cases s.depth with
  | zero => exact ⟨Nat.le_refl 0, fun levels _ => Nat.zero_le levels⟩
  | succ levels =>
    exact ⟨room_lt_succ s.options.segmentCapacity_pos levels, fun other fits => lt_of_room_lt fits⟩

namespace Peers

theorem toArray (peers : s.Peers t) : s.toArray = t.toArray := Array.ext' peers.elements

theorem length (peers : s.Peers t) : s.length = t.length := by
  rw [peers.valid.length_eq, peers.valid'.length_eq, peers.elements]

theorem get? (peers : s.Peers t) (index : Nat) : s.get? index = t.get? index := by
  rw [peers.valid.get?_eq, peers.valid'.get?_eq, peers.elements]

theorem last? (peers : s.Peers t) : s.last? = t.last? := by
  rw [peers.valid.last?_eq, peers.valid'.last?_eq, peers.elements]

theorem isFlat (peers : s.Peers t) : s.isFlat = t.isFlat := by
  rw [isFlat_eq_depth, isFlat_eq_depth, peers.depth]

theorem flat? (peers : s.Peers t) : s.flat? = t.flat? := by
  have flat := peers.isFlat
  unfold Sequence.isFlat at flat
  cases here : s.flat? with
  | none =>
    rw [here] at flat
    exact (Option.not_isSome_iff_eq_none.mp (by simp [← flat])).symm
  | some items =>
    rw [here] at flat
    obtain ⟨others, there⟩ := Option.isSome_iff_exists.mp flat.symm
    rw [there, flat?_eq_toArray here, flat?_eq_toArray there, peers.toArray]

/-- The segments hold the same elements one by one. -/
theorem segments (peers : s.Peers t) :
    s.segments.toList.map Buffer.items = t.segments.toList.map Buffer.items := by
  have items : s.segments.toList.map Buffer.toList = t.segments.toList.map Buffer.toList := by
    rw [peers.valid.segments_eq_split, peers.valid'.segments_eq_split, peers.capacity,
      peers.elements]
  have arrays := congrArg (List.map List.toArray) items
  rwa [List.map_map, List.map_map] at arrays

end Peers

end Sequence

namespace Edit

variable [BEq α] [Inhabited α] {s t : Sequence α} {edit : Edit α}

open Sequence (Valid Peers)

/-- What a call answers, the elements that it leaves, and whether they are disposed of: given
whether a sequence is flat and disposed of, and its elements. -/
def effect (flat disposed : Bool) (xs : List α) :
    Edit α → Except Failure (Reply α) × List α × Bool
  | dispose => (.ok .done, if disposed then xs else [], true)
  | replaceFlat index x =>
    if flat then (.ok (.option xs[index]?), xs.set index x, disposed)
    else (.ok .deep, xs, disposed)
  | sortUnstable order =>
    if flat then (.ok .done, stableSort order xs, disposed)
    else match Introsort.sort order xs.toArray with
      | .ok sorted => (.ok .done, sorted.toList, disposed)
      | .error _ => (.ok .done, xs, disposed)
  | edit => ((edit.onList xs).1, (edit.onList xs).2, disposed)

theorem effect_of_onLists (listed : edit.OnLists) (flat disposed : Bool) (xs : List α) :
    edit.effect flat disposed xs = ((edit.onList xs).1, (edit.onList xs).2, disposed) := by
  cases edit
  case dispose | replaceFlat | sortUnstable => exact listed.elim
  all_goals rfl

omit [BEq α] [Inhabited α] in
theorem refusal?_congr (peers : s.Peers t) (edit : Edit α) : edit.refusal? s = edit.refusal? t := by
  have length := peers.length
  have checks (source : Array α) (start index count : Nat) :
      s.checkCopyFrom source start index count = t.checkCopyFrom source start index count := by
    rw [Sequence.checkCopyFrom_eq, Sequence.checkCopyFrom_eq, length]
  unfold refusal?
  rw [peers.disposed]
  cases edit <;> simp only [violation?, length, checks]

variable [Allocator σ α] [LawfulAllocator σ α]

/-- What a call that nothing forbids does to a valid sequence, as far as its elements go. -/
structure Effected (edit : Edit α) (s : Sequence α) (after : Reply α × Sequence α) : Prop where
  answer : .ok after.1 = (edit.effect s.isFlat s.disposed s.toList).1
  elements : after.2.toList = (edit.effect s.isFlat s.disposed s.toList).2.1
  disposed : after.2.disposed = (edit.effect s.isFlat s.disposed s.toList).2.2

theorem effected_perform (valid : s.Valid) (allowed : edit.violation? s = none) {depot : Depot σ}
    (sound : LawfulAllocator.Sound depot.allocator) :
    edit.Effected s ((edit.perform s).run depot).1 := by
  by_cases listed : edit.OnLists
  · obtain ⟨-, answered, follows⟩ := edit.ensures_perform valid listed allowed depot sound
    constructor <;> rw [effect_of_onLists listed]
    · exact answered
    · exact follows.elements
    · exact follows.disposed
  cases edit with
  | dispose =>
    have follows := (Sequence.ensures_dispose valid depot sound).2
    exact ⟨rfl, follows.elements, follows.disposed⟩
  | replaceFlat index x =>
    have follows := (Sequence.follows_set valid index x).2
    by_cases flat : s.isFlat
    · constructor <;> simp only [perform, effect, flat, if_true]
      · exact congrArg (fun x => Except.ok (Reply.option x)) (valid.get?_eq index)
      · exact follows.elements
      · exact follows.disposed
    · constructor <;> simp only [perform, effect, flat] <;> rfl
  | sortUnstable order =>
    cases flat : s.flat? with
    | some items =>
      have isFlat : s.isFlat = true := by simp [Sequence.isFlat, flat]
      have follows := (Sequence.follows_sortFlat valid order flat).2
      constructor <;> simp only [perform, Sequence.sortUnstable, effect, isFlat, flat, if_true]
      · rfl
      · exact follows.elements
      · exact follows.disposed
    | none =>
      have deep : s.isFlat = false := by simp [Sequence.isFlat, flat]
      obtain ⟨sorted, done, permuted⟩ := Introsort.permutes_sort order s.toArray
      have enough : sorted.size = s.length := by
        rw [permuted.size_eq, valid.length_eq]
        exact Array.length_toList.symm
      have follows := (Sequence.follows_refill valid enough).2
      have same : s.toList.toArray = s.toArray := Array.toArray_toList
      constructor <;> simp only [perform, Sequence.sortUnstable, effect, deep, flat, done, same,
        Bool.false_eq_true, if_false]
      · rfl
      · exact follows.elements
      · exact follows.disposed
  | _ => exact absurd trivial listed

omit [Allocator σ α] [LawfulAllocator σ α] in
theorem disposed_effect (lives : edit ≠ dispose)
    (flat disposed : Bool) (xs : List α) : (edit.effect flat disposed xs).2.2 = disposed := by
  cases edit with
  | dispose => exact absurd rfl lives
  | replaceFlat index x => cases flat <;> rfl
  | sortUnstable order =>
    cases flat with
    | true => rfl
    | false =>
      simp only [effect, Bool.false_eq_true, if_false]
      split <;> rfl
  | _ => rfl

/-- Only disposal disposes of a sequence. -/
theorem disposed_apply (valid : s.Valid) (lives : edit ≠ dispose) (depot : Depot σ)
    (sound : LawfulAllocator.Sound depot.allocator) :
    ((edit.apply s).run depot).1.2.disposed = s.disposed := by
  cases refused : edit.refusal? s with
  | some failure => rw [run_apply_of_refused refused]
  | none =>
    have effected := effected_perform valid (violation?_eq_none refused) sound
    rw [run_apply_of_accepted refused]
    exact effected.disposed.trans (disposed_effect lives ..)

variable [Allocator τ α] [LawfulAllocator τ α]

theorem version_perform_congr (peers : s.Peers t) (allowed : edit.violation? s = none)
    (allowed' : edit.violation? t = none) {depot : Depot σ} {depot' : Depot τ}
    (sound : LawfulAllocator.Sound depot.allocator)
    (sound' : LawfulAllocator.Sound depot'.allocator) :
    ((edit.perform s).run depot).1.2.version = ((edit.perform t).run depot').1.2.version := by
  by_cases ends : edit = dispose
  · subst ends
    have ended : ((s.dispose).run depot).1.version = if s.disposed then s.version else 65535 :=
      Sequence.returns_dispose s depot
    have ended' : ((t.dispose).run depot').1.version = if t.disposed then t.version else 65535 :=
      Sequence.returns_dispose t depot'
    rw [← peers.disposed, ← peers.version] at ended'
    exact ended.trans ended'.symm
  · have moved := moved_perform peers.valid ends allowed depot sound
    have moved' := moved_perform peers.valid' ends allowed' depot' sound'
    rw [Sequence.Moved, ← peers.isFlat, ← peers.elements, ← peers.version] at moved'
    exact Eq.trans moved moved'.symm

omit [BEq α] [Inhabited α] [Allocator σ α] [LawfulAllocator σ α] [Allocator τ α]
  [LawfulAllocator τ α] in
theorem peak_congr (edit : Edit α) (earlier : Nat) (reply reply' : Reply α)
    (length : s.length = t.length) :
    edit.peak earlier (.ok reply, s) = edit.peak earlier (.ok reply', t) := by
  cases edit <;> simp only [peak, length]

/-- A call answers the same on both of two peers, and leaves peers. -/
theorem peers_apply (peers : s.Peers t) (edit : Edit α) {depot : Depot σ} {depot' : Depot τ}
    (sound : LawfulAllocator.Sound depot.allocator)
    (sound' : LawfulAllocator.Sound depot'.allocator) :
    ((edit.apply s).run depot).1.1 = ((edit.apply t).run depot').1.1 ∧
      ((edit.apply s).run depot).1.2.Peers ((edit.apply t).run depot').1.2 := by
  obtain ⟨-, valid, options⟩ := edit.ensures_apply peers.valid depot sound
  obtain ⟨-, valid', options'⟩ := edit.ensures_apply peers.valid' depot' sound'
  -- The two depths agree because both are the least that suits one history of lengths.
  have suits := s.suits_need
  have suits' := t.suits_need
  rw [← peers.capacity, ← peers.depth] at suits'
  have suits := edit.suits_apply peers.valid suits sound
  have suits' := edit.suits_apply peers.valid' suits' sound'
  have refusal := refusal?_congr peers edit
  cases refused : edit.refusal? s with
  | some failure =>
    rw [run_apply_of_refused refused, run_apply_of_refused (refusal ▸ refused)]
    exact ⟨rfl, peers⟩
  | none =>
    have accepted := violation?_eq_none refused
    have accepted' := violation?_eq_none (refusal ▸ refused)
    obtain ⟨answer, elements, disposed⟩ := effected_perform peers.valid accepted sound
    obtain ⟨answer', elements', disposed'⟩ := effected_perform peers.valid' accepted' sound'
    rw [← peers.isFlat, ← peers.disposed, ← peers.elements] at answer' elements' disposed'
    have version := version_perform_congr peers accepted accepted' sound sound'
    rw [run_apply_of_accepted refused] at valid options suits ⊢
    rw [run_apply_of_accepted (refusal ▸ refused)] at valid' options' suits' ⊢
    have same := elements.trans elements'.symm
    have capacity := congrArg Options.segmentCapacity options
    rw [peers.capacity, ← options'] at capacity
    have length : ((edit.perform s).run depot).1.2.length =
        ((edit.perform t).run depot').1.2.length :=
      valid.length_eq.trans ((congrArg List.length same).trans valid'.length_eq.symm)
    rw [edit.peak_congr _ _ _ length, Sequence.Suits, capacity] at suits
    exact ⟨answer.trans answer'.symm, valid, valid', capacity, same, version,
      suits.unique suits', disposed.trans disposed'.symm⟩

end Edit

/-! ### Sequences made from peers -/

namespace Sequence

variable {s t : Sequence α}

theorem Suits.depth_eq {peak : Nat} (suits : s.Suits peak) (suits' : t.Suits peak)
    (capacity : s.options.segmentCapacity = t.options.segmentCapacity) : s.depth = t.depth := by
  rw [Suits, capacity] at suits
  exact suits.unique suits'

theorem Peers.metadata (peers : s.Peers t) : s.metadata = t.metadata := by
  rw [Snapshot.metadata_eq_description peers.valid, Snapshot.metadata_eq_description peers.valid',
    peers.capacity, peers.version, peers.elements]

theorem Peers.arrays (peers : s.Peers t) : Snapshot.arrays s = Snapshot.arrays t := by
  rw [Snapshot.arrays_eq_cut peers.valid, Snapshot.arrays_eq_cut peers.valid', peers.capacity,
    peers.elements]

variable [Allocator σ α] [LawfulAllocator σ α] [Allocator τ α] [LawfulAllocator τ α]
  {depot : Depot σ} {depot' : Depot τ}

omit [LawfulAllocator σ α] in
theorem version_copy (s : Sequence α) (depot : Depot σ) :
    (s.copy.run depot).1.version = UInt16.ofNat s.toList.length :=
  Eq.trans (returns_extend s.toList _ depot) (UInt16.zero_add _)

theorem Peers.copy (peers : s.Peers t) (sound : LawfulAllocator.Sound depot.allocator)
    (sound' : LawfulAllocator.Sound depot'.allocator) :
    ((s.copy).run depot).1.Peers ((t.copy).run depot').1 := by
  have follows := (ensures_copy s depot sound).2
  have follows' := (ensures_copy t depot' sound').2
  have elements : (s.copy.run depot).1.toList = (t.copy.run depot').1.toList := by
    rw [follows.elements, follows'.elements, peers.elements]
  have capacity : (s.copy.run depot).1.options.segmentCapacity =
      (t.copy.run depot').1.options.segmentCapacity := by
    rw [follows.options, follows'.options]
    exact peers.capacity
  have length : (s.copy.run depot).1.length = (t.copy.run depot').1.length := by
    rw [follows.valid.length_eq, follows'.valid.length_eq, elements]
  refine ⟨follows.valid, follows'.valid, capacity, elements, ?_, ?_,
    follows.disposed.trans follows'.disposed.symm⟩
  · rw [version_copy, version_copy, peers.elements]
  · exact (suits_copy s sound).depth_eq (length ▸ suits_copy t sound') capacity

end Sequence

namespace Drain

/-- Both drains hold the same elements, buffer by buffer, and have come equally far. -/
structure Peers (drain other : Drain α) : Prop where
  items : drain.buffers.map Buffer.items = other.buffers.map Buffer.items
  taken : drain.taken = other.taken
  remaining : drain.remaining = other.remaining

theorem peers_ofSequence {s t : Sequence α} (peers : s.Peers t) :
    (ofSequence s).Peers (ofSequence t) :=
  ⟨peers.segments, rfl, peers.length⟩

variable [Allocator σ α] [Allocator τ α]

theorem peers_advance (clear clear' : Bool) (remaining taken : Nat)
    {buffers others : List (Buffer α)}
    (items : buffers.map Buffer.items = others.map Buffer.items) (depot : Depot σ)
    (depot' : Depot τ) :
    ((advance clear remaining taken buffers).run depot).1.1 =
        ((advance clear' remaining taken others).run depot').1.1 ∧
      ((advance clear remaining taken buffers).run depot).1.2.Peers
        ((advance clear' remaining taken others).run depot').1.2 := by
  induction buffers generalizing others taken depot depot' with
  | nil =>
    obtain rfl := List.map_eq_nil_iff.mp items.symm
    exact ⟨rfl, rfl, rfl, rfl⟩
  | cons buffer rest ih =>
    obtain ⟨other, later, rfl, same, items⟩ := List.map_eq_cons_iff.mp items.symm
    unfold advance
    rw [same]
    cases buffer.items[taken]? with
    | some x =>
      refine ⟨rfl, ?_, rfl, rfl⟩
      change buffer.items :: rest.map Buffer.items = other.items :: later.map Buffer.items
      rw [same, items]
    | none => exact ih 0 items.symm _ _

/-- Peers yield the same elements, and stay peers. -/
theorem Peers.take {drain other : Drain α} (peers : drain.Peers other) (count : Nat)
    (depot : Depot σ) (depot' : Depot τ) :
    ((drain.take count).run depot).1.1 = ((other.take count).run depot').1.1 ∧
      ((drain.take count).run depot).1.2.Peers ((other.take count).run depot').1.2 := by
  have go (count : Nat) (yielded : List α) {drain other : Drain α} (peers : drain.Peers other)
      (depot : Depot σ) (depot' : Depot τ) :
      ((take.go count yielded drain).run depot).1.1 =
          ((take.go count yielded other).run depot').1.1 ∧
        ((take.go count yielded drain).run depot).1.2.Peers
          ((take.go count yielded other).run depot').1.2 := by
    induction count generalizing yielded drain other depot depot' with
    | zero => exact ⟨rfl, peers⟩
    | succ count ih =>
      have step := peers_advance drain.clearsOnReturn other.clearsOnReturn drain.remaining
        drain.taken peers.items depot depot'
      unfold take.go next
      rw [← peers.remaining, ← peers.taken, StateT.run_bind, StateT.run_bind]
      generalize StateT.run (advance drain.clearsOnReturn _ _ drain.buffers) depot = after at step ⊢
      generalize StateT.run (advance other.clearsOnReturn _ _ other.buffers) depot' = after'
        at step ⊢
      obtain ⟨⟨found, left⟩, depot⟩ := after
      obtain ⟨⟨found', left'⟩, depot'⟩ := after'
      obtain ⟨same, peers⟩ := step
      dsimp only at same peers
      subst same
      cases found with
      | none => exact ⟨rfl, peers⟩
      | some x => exact ih (x :: yielded) peers depot depot'
  exact go count [] peers depot depot'

end Drain

/-! ### Snapshots -/

namespace Snapshot

variable {ω : Type} [Inhabited α]

/-- What two restorations from one source answer: peers, or the same error; and they leave the
source in the same state. -/
def Restored (answer other : Except SnapshotError (Sequence α) × ω) : Prop :=
  answer.2 = other.2 ∧
    match answer.1, other.1 with
    | .ok s, .ok t => s.Peers t
    | .error fault, .error fault' => fault = fault'
    | _, _ => False

omit [Inhabited α] in
theorem LaidOut.peers {metadata : Metadata} {options : Options} {s t : Sequence α}
    (out : LaidOut metadata options s) (out' : LaidOut metadata options t)
    (contents : s.toArray = t.toArray) (version : s.version = t.version) : s.Peers t where
  valid := out.valid
  valid' := out'.valid
  capacity := congrArg Options.segmentCapacity (out.options.trans out'.options.symm)
  elements := congrArg Array.toList contents
  version := version
  depth := by
    have suits := out.valid.suits_of_tight out.tight
    have suits' := out'.valid.suits_of_tight out'.tight
    rw [out.length] at suits
    rw [out'.length] at suits'
    exact suits.depth_eq suits'
      (congrArg Options.segmentCapacity (out.options.trans out'.options.symm))
  disposed := out.live.trans out'.live.symm

variable [Allocator σ α] [LawfulAllocator σ α] [Allocator τ α] [LawfulAllocator τ α]
  {depot : Depot σ} {depot' : Depot τ}

theorem restored_restore [reader : Source ω α] (source : ω)
    (sound : LawfulAllocator.Sound depot.allocator)
    (sound' : LawfulAllocator.Sound depot'.allocator) :
    Restored ((restore source).run depot).1 ((restore source).run depot').1 := by
  unfold restore
  cases reader.readMetadata.run.run source with
  | mk answer source =>
    cases answer with
    | error fault => exact ⟨rfl, rfl⟩
    | ok metadata =>
      dsimp only
      cases metadata.options with
      | error fault => exact ⟨rfl, rfl⟩
      | ok options =>
        obtain ⟨-, laid, out, outcome⟩ := ensures_fill (α := α) metadata options source depot sound
        obtain ⟨-, laid', out', outcome'⟩ :=
          ensures_fill (α := α) metadata options source depot' sound'
        have length : laid'.length = laid.length := out'.length.trans out.length.symm
        have capacity : laid'.options.segmentCapacity = laid.options.segmentCapacity := by
          rw [out.options, out'.options]
        rw [Outcome, out.valid.segmentCount_congr out'.valid length capacity,
          sizes_congr out.valid out'.valid length capacity] at outcome'
        dsimp only
        generalize ((fill metadata options source).run depot).1 = after at outcome ⊢
        generalize ((fill metadata options source).run depot').1 = after' at outcome' ⊢
        rw [Outcome] at outcome
        split at outcome
        · rename_i needed
          rw [if_pos needed] at outcome'
          split at outcome
          · rename_i read
            rw [read] at outcome'
            rw [outcome, outcome']
            exact ⟨rfl, rfl⟩
          · rename_i read
            rw [read] at outcome'
            obtain ⟨s, rfl, out, version, contents⟩ := outcome
            obtain ⟨t, rfl, out', version', contents'⟩ := outcome'
            exact ⟨rfl, out.peers out' (contents.trans contents'.symm)
              (version.trans version'.symm)⟩
        · rename_i mismatch
          rw [if_neg mismatch] at outcome'
          rw [outcome, outcome']
          exact ⟨rfl, rfl⟩

omit [Inhabited α] [Allocator σ α] [LawfulAllocator σ α] [Allocator τ α] [LawfulAllocator τ α] in
/-- A sink gets the same from peers. -/
theorem save_congr [Sink ω α] {s t : Sequence α} (peers : s.Peers t) (sink : ω) (depot : Depot σ)
    (depot' : Depot τ) : ((save s sink).run depot).1 = ((save t sink).run depot').1 := by
  rw [save_fst, save_fst, peers.metadata, peers.arrays]

end Snapshot

/-! ### Readings -/

namespace Sequence

variable {s t : Sequence α}

/-- No reading tells the two sequences apart, whatever is looked for and with whichever test. -/
structure ReadAlike (s t : Sequence α) : Prop where
  length : s.length = t.length
  contents : s.toArray = t.toArray
  version : s.version = t.version
  depth : s.depth = t.depth
  sizes : s.segments.toList.map Buffer.size = t.segments.toList.map Buffer.size
  position (index : Nat) : s.get? index = t.get? index
  index (index : Nat) : s.index index = t.index index
  front : s.front = t.front
  top : s.top = t.top
  flat : s.flat? = t.flat?
  walk (count : Nat) : (s.walk.take count).1 = (t.walk.take count).1
  stack : s.stackWalk.rest = t.stackWalk.rest
  advance (cursor : Cursor) : cursor.advance s = cursor.advance t
  find {S : Type} (test : α → StateM S Bool) (start : Nat) : s.find test start = t.find test start
  findLast {S : Type} (test : α → StateM S Bool) : s.findLast test = t.findLast test
  findIn {S : Type} (test : α → StateM S Bool) (start stop : Nat) :
    s.findIn test start stop = t.findIn test start stop
  findLastIn {S : Type} (test : α → StateM S Bool) (start stop : Nat) :
    s.findLastIn test start stop = t.findLastIn test start stop
  search (order : α → Ordering) : s.search order = t.search order
  searchIn (order : α → Ordering) (start stop : Nat) :
    s.searchIn order start stop = t.searchIn order start stop
  copyTo (start : Nat) (target : Array α) (index count : Nat) :
    s.copyTo start target index count = t.copyTo start target index count
  sameElements [BEq α] (other : Sequence α) : s.sameElements other = t.sameElements other
  isSortedBy (related : α → α → Bool) : s.isSortedBy related = t.isSortedBy related

theorem Peers.readAlike (peers : s.Peers t) : s.ReadAlike t where
  length := peers.length
  contents := peers.toArray
  version := peers.version
  depth := peers.depth
  sizes := (peers.valid'.sizes_congr peers.valid peers.length peers.capacity)
  position := peers.get?
  index index := by simp only [Sequence.index, peers.get?, peers.length]
  front := by simp only [Sequence.front, first?, peers.get?]
  top := by simp only [Sequence.top, peers.last?]
  flat := peers.flat?
  walk count := by rw [walk_take_eq, walk_take_eq, peers.elements]
  stack := by rw [peers.valid.stackWalk_eq, peers.valid'.stackWalk_eq, peers.elements]
  advance cursor := by simp only [Cursor.advance, peers.version, peers.get?]
  find test start := by rw [peers.valid.find_eq, peers.valid'.find_eq, peers.toArray]
  findLast test := by
    simp only [Sequence.findLast, peers.valid.findLastWithin_eq, peers.valid'.findLastWithin_eq,
      peers.toArray, peers.length]
  findIn test start stop := by
    simp only [Sequence.findIn, checkRange, peers.valid.findWithin_eq, peers.valid'.findWithin_eq,
      peers.toArray, peers.length]
  findLastIn test start stop := by
    simp only [Sequence.findLastIn, checkRange, peers.valid.findLastWithin_eq,
      peers.valid'.findLastWithin_eq, peers.toArray, peers.length]
  search order := by
    simp only [Sequence.search, searchWithin, peers.isFlat, peers.get?, peers.length]
  searchIn order start stop := by
    simp only [Sequence.searchIn, checkRange, searchWithin, peers.isFlat, peers.get?, peers.length]
  copyTo start target index count := by
    simp only [Sequence.copyTo, window, peers.get?, peers.length]
  sameElements other := by simp only [Sequence.sameElements, peers.length, peers.toArray]
  isSortedBy related := by simp only [Sequence.isSortedBy, peers.elements]

end Sequence

end Segmented
