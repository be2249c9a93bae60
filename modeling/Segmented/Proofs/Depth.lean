import Mathlib.Order.Bounds.Basic
import Segmented.Proofs.Detection
import Segmented.Proofs.Layout
import Segmented.Proofs.Levels
import Segmented.Proofs.WellFormed

/-! How deep a sequence is. Its depth follows the largest length that it has had since it was last
empty: levels are gained when they are needed and are not given up. Only a stable sort of a deep
sequence builds the tree anew. -/

namespace Segmented

variable {σ α : Type}

theorem Tree.span_eq_mul_pow (capacity level : Nat) :
    span capacity level = capacity * 65536 ^ level := by
  induction level with
  | zero => simp [span]
  | succ level ih => rw [span, ih, Nat.pow_succ, fanout]; ring

namespace Sequence

variable {capacity : Nat} {s s' s'' : Sequence α}

theorem room_of_pos {levels : Nat} (positive : 1 ≤ levels) :
    room capacity levels = capacity * 65536 ^ (levels - 1) := by
  obtain ⟨level, rfl⟩ := Nat.exists_eq_add_of_le' positive
  exact Tree.span_eq_mul_pow capacity level

theorem room_mono {low high : Nat} (order : low ≤ high) :
    room capacity low ≤ room capacity high := by
  rcases Nat.eq_zero_or_pos low with rfl | positive
  · exact Nat.zero_le _
  · rw [room_of_pos positive, room_of_pos (Nat.le_trans positive order)]
    exact Nat.mul_le_mul_left _ (Nat.pow_le_pow_right (by decide) (Nat.sub_le_sub_right order 1))

/-- A further level has room for many times as many elements. -/
theorem room_succ {levels : Nat} (positive : 1 ≤ levels) :
    room capacity (levels + 1) = 65536 * room capacity levels := by
  obtain ⟨level, rfl⟩ := Nat.exists_eq_add_of_le' positive
  rfl

theorem lt_of_room_lt {low high : Nat} (more : room capacity low < room capacity high) :
    low < high :=
  Nat.lt_of_not_le fun order => absurd (room_mono order) (Nat.not_le.mpr more)

theorem Valid.depth_eq_zero_iff (valid : s.Valid) : s.depth = 0 ↔ s.length = 0 := by
  rw [valid.length_eq_zero_iff, depth]
  cases s.root <;> simp

/-- The elements do not fit into fewer levels. -/
def Needy (s : Sequence α) : Prop :=
  room s.options.segmentCapacity (s.depth - 1) < s.length

theorem Valid.needy (valid : s.Valid) (tight : s.Tight) (some : s.length ≠ 0) : s.Needy := by
  refine Nat.lt_of_not_le fun fits => ?_
  have shallow := valid.depth_le tight fits
  have deep : s.depth ≠ 0 := mt valid.depth_eq_zero_iff.mp some
  omega

/-! ### Growth -/

/-- The second sequence has the depth of the first, or no more levels than it needs. -/
structure Grown (s s' : Sequence α) : Prop where
  options : s'.options = s.options
  longer : s.length ≤ s'.length
  depth : s'.depth = s.depth ∨ s'.Needy

theorem Grown.refl (s : Sequence α) : s.Grown s := ⟨rfl, Nat.le_refl _, .inl rfl⟩

theorem Grown.trans (first : s.Grown s') (second : s'.Grown s'') : s.Grown s'' where
  options := second.options.trans first.options
  longer := Nat.le_trans first.longer second.longer
  depth := by
    rcases second.depth with same | needy
    · rcases first.depth with same' | needy
      · exact .inl (same.trans same')
      · right
        rw [Needy, second.options, same]
        exact Nat.lt_of_lt_of_le needy second.longer
    · exact .inr needy

/-- A sequence grows to more elements on as many levels, or on as few as possible. -/
theorem Follows.grown {ys : List α} (follows : s.Follows ys s') (valid : s.Valid)
    (longer : s.toList.length < ys.length) (climbs : s'.depth = s.depth ∨ s'.Tight) :
    s.Grown s' := by
  have length : s'.length = ys.length := by rw [follows.valid.length_eq, follows.elements]
  have old := valid.length_eq
  refine ⟨follows.options, by omega, climbs.imp_right fun tight => ?_⟩
  exact follows.valid.needy tight (by omega)

variable [Allocator σ α] [LawfulAllocator σ α] {depot : Depot σ}

open Depot (Returns)

theorem Valid.grown_pushDeep (valid : s.Valid) (x : α)
    (sound : LawfulAllocator.Sound depot.allocator) : s.Grown ((s.pushDeep x).run depot).1 := by
  refine (ensures_pushDeep valid x depot sound).2.grown valid (by simp) ?_
  unfold pushDeep detach
  cases valid with
  | empty root =>
    simp only [root]
    right
    intro grown same lower deeper
    cases same
    exact absurd deeper (Nat.zero_ne_add_one lower)
  | tree root packed =>
    simp only [root]
    have appended := (Root.ensures_push packed s.length x depot sound).2
    refine appended.climbs.imp (fun same => ?_) fun tight => ?_
    · exact (congrArg (· + 1) same).trans (depth_of_root root).symm
    · intro grown same
      cases same
      exact tight

theorem Valid.grown_push (valid : s.Valid) (x : α)
    (sound : LawfulAllocator.Sound depot.allocator) : s.Grown ((s.push x).run depot).1 := by
  have follows := (ensures_push valid x depot sound).2
  have deep := valid.grown_pushDeep x sound
  unfold push at follows ⊢
  dsimp only at follows ⊢
  split at follows
  · rename_i spare
    rw [if_pos spare]
    have same := depth_updateTail (fun buffer => buffer.push s.options x) s depot
    exact follows.grown valid (by simp) (.inl same)
  · rename_i full
    rw [if_neg full]
    exact deep

theorem Valid.grown_extend (valid : s.Valid) (xs : List α)
    (sound : LawfulAllocator.Sound depot.allocator) : s.Grown ((s.extend xs).run depot).1 := by
  unfold extend
  induction xs generalizing s depot with
  | nil => exact .refl s
  | cons x rest ih =>
    rw [List.foldlM_cons]
    obtain ⟨extended, follows⟩ := ensures_push valid x depot sound
    exact (valid.grown_push x sound).trans (ih follows.valid extended.sound)

/-- What an insertion leaves over makes a tree grow like any other element at its end. -/
theorem climbs_insertDeep_of_packed {level : Nat} {tree : Tree α level} {front : List (Buffer α)}
    {last : Buffer α} (packed : tree.Packed s.options.segmentCapacity front last) {index : Nat}
    (inside : index < tree.toList.length) (x : α)
    (sound : LawfulAllocator.Sound depot.allocator) :
    ((s.insertDeep index x { level, tree }).run depot).1.depth = level + 1 ∨
      ((s.insertDeep index x { level, tree }).run depot).1.Tight := by
  obtain ⟨extended, ⟨front', last', packed'⟩, -⟩ :=
    Tree.ensures_insert packed inside x depot sound
  rw [insertDeep, StateT.run_bind]
  generalize (tree.insert s.options index x).run depot = outcome at extended packed'
  obtain ⟨⟨tree', carry⟩, depot'⟩ := outcome
  cases carry with
  | none => exact .inl rfl
  | some carry =>
    have appended := (Root.ensures_push packed' s.length carry depot' extended.sound).2
    refine appended.climbs.imp (congrArg (· + 1)) fun tight => ?_
    intro grown same
    cases same
    exact tight

theorem Valid.grown_insert (valid : s.Valid) {index : Nat} (inside : index ≤ s.length) (x : α)
    (sound : LawfulAllocator.Sound depot.allocator) :
    s.Grown ((s.insert index x).run depot).1 := by
  have longer : s.toList.length < (s.toList.insertIdx index x).length := by
    rw [List.length_insertIdx_of_le_length (valid.length_eq ▸ inside)]
    exact Nat.lt_succ_self _
  have pushed := valid.grown_push x sound
  have follows := (ensures_insert valid inside x depot sound).2
  unfold insert at follows ⊢
  by_cases atEnd : index = s.length
  · rwa [if_pos atEnd]
  · rw [if_neg atEnd] at follows ⊢
    refine follows.grown valid longer ?_
    cases valid with
    | empty root zero => exact absurd (Nat.le_zero.mp (zero ▸ inside)) (zero ▸ atEnd)
    | tree root packed total tail =>
      rename_i level tree front last
      have within : index < tree.toList.length := by omega
      have old : s.depth = level + 1 := depth_of_root root
      have deep := climbs_insertDeep_of_packed (s := { s with root := none }) packed within x sound
      rw [← old] at deep
      simp only [detach, root]
      cases level with
      | succ level => exact deep
      | zero =>
        change Buffer α at tree
        cases room : tree.isFull s.options with
        | true => simpa only [room, if_true] using deep
        | false =>
          simp only [room, Bool.false_eq_true, if_false]
          exact .inl old.symm

theorem Valid.grown_ensure (valid : s.Valid) (length : Nat) (x : α)
    (sound : LawfulAllocator.Sound depot.allocator) :
    s.Grown ((s.ensure length x).run depot).1 := by
  have total := valid.length_eq
  obtain ⟨-, follows, tight⟩ := ensures_ensure valid length x depot sound
  unfold ensure at follows tight ⊢
  by_cases enough : length ≤ s.length
  · rw [if_pos enough]
    exact .refl s
  · rw [if_neg enough] at follows tight ⊢
    have longer : s.toList.length <
        (s.toList ++ List.replicate (length - s.length) x).length := by
      rw [List.length_append, List.length_replicate]
      omega
    refine follows.grown valid longer ?_
    cases valid with
    | empty root =>
      refine .inr (tight fun grown here => ?_)
      cases root.symm.trans here
    | tree root packed =>
      simp only [detach, root, pure_bind]
      have filled := Root.ensures_fill (σ := σ) packed.opened
        (fun _ : length - s.length = 0 => packed.filled.positive) s.length x
      have appended := (filled depot sound).2
      refine appended.climbs.imp (fun same => ?_) fun tight => ?_
      · exact (congrArg (· + 1) same).trans (depth_of_root root).symm
      · intro grown same
        cases same
        exact tight

theorem Grown.modify (grown : s.Grown s') (index : Nat) (change : α → α) :
    s.Grown (s'.modify index change) := by
  obtain ⟨options, longer, depth⟩ := grown
  obtain ⟨root⟩ := s'
  cases root <;> exact ⟨options, longer, depth⟩

/-! ### A stable sort -/

/-- A sort of a deep sequence adds the sorted elements to an empty one. -/
theorem exists_run_sort (deep : s.flat? = none) (order : α → α → Ordering)
    (sound : LawfulAllocator.Sound depot.allocator) :
    let emptied := { s with root := none, tail := none, length := 0 }
    ∃ depot' : Depot σ, LawfulAllocator.Sound depot'.allocator ∧
      ((s.sort order).run depot).1 =
        { ((emptied.extend (stableSort order s.toList)).run depot').1 with
          version := s.version + 1 } := by
  have extended := (ensures_takeAll s depot sound).1
  let told := (Depot.notify (.sortingRebuilt s.toList.length)).run (s.takeAll.run depot).2
  refine ⟨told.2, extended.sound, ?_⟩
  unfold sort
  rw [deep]
  rfl

theorem Valid.length_sort (valid : s.Valid) (order : α → α → Ordering)
    (sound : LawfulAllocator.Sound depot.allocator) :
    ((s.sort order).run depot).1.length = s.length := by
  have follows := (ensures_sort valid order depot sound).2
  rw [follows.valid.length_eq, follows.elements, length_stableSort, valid.length_eq]

/-- A stable sort leaves no more levels than are needed. -/
theorem Valid.needy_sort (valid : s.Valid) (order : α → α → Ordering)
    (sound : LawfulAllocator.Sound depot.allocator) (some : s.length ≠ 0) :
    ((s.sort order).run depot).1.Needy := by
  have follows := (ensures_sort valid order depot sound).2
  have length := valid.length_sort order sound
  have deep : ((s.sort order).run depot).1.depth ≠ 0 :=
    mt follows.valid.depth_eq_zero_iff.mp (length ▸ some)
  cases flat : s.flat? with
  | some items =>
    have shallow : ((s.sort order).run depot).1.depth ≤ 1 := by
      unfold sort
      rw [flat]
      exact (depth_refill _ s).trans_le (depth_le_one_of_flat flat)
    have lowest : ((s.sort order).run depot).1.depth - 1 = 0 := by omega
    rw [Needy, lowest, length]
    exact Nat.pos_of_ne_zero some
  | none =>
    obtain ⟨depot', sound', same⟩ := exists_run_sort flat order sound
    have grown := Valid.grown_extend (.empty rfl rfl rfl)
      (s := { s with root := none, tail := none, length := 0 }) (stableSort order s.toList) sound'
    rw [same] at deep ⊢
    rcases grown.depth with none | needy
    · exact absurd none deep
    · exact needy

end Sequence

namespace Edit

variable [Allocator σ α] [LawfulAllocator σ α] [BEq α] [Inhabited α] {s : Sequence α}
  {depot : Depot σ}

open Sequence (Valid)

theorem grown_perform (valid : s.Valid) {edit : Edit α} (grows : edit.Grows)
    (allowed : edit.violation? s = none) (sound : LawfulAllocator.Sound depot.allocator) :
    s.Grown ((edit.perform s).run depot).1.2 ∨ s.Lowered ((edit.perform s).run depot).1.2 := by
  cases edit with
  | push x => exact .inl (valid.grown_push x sound)
  | extend xs => exact .inl (valid.grown_extend xs sound)
  | insert index x =>
    have inside : index ≤ s.length := by simpa [violation?] using allowed
    exact .inl (valid.grown_insert inside x sound)
  | ensure length x => exact .inl (valid.grown_ensure length x sound)
  | resize length x =>
    by_cases longer : s.length < length
    · rw [perform, Sequence.resize, if_pos longer]
      exact .inl (valid.grown_ensure length x sound)
    · rw [perform, Sequence.resize, if_neg longer]
      exact .inr (Sequence.sinks_truncate length s depot).2
  | placeAt index x =>
    rw [perform, Sequence.placeAt_eq]
    exact .inl ((valid.grown_ensure (Sequence.countTo index) default sound).modify index _)
  | _ => exact grows.elim

end Edit

/-! ### The largest length -/

namespace Sequence

variable {s s' : Sequence α}

/-- The sequence has the levels that `peak` elements need. -/
def Suits (s : Sequence α) (peak : Nat) : Prop :=
  IsLeast {levels | peak ≤ room s.options.segmentCapacity levels} s.depth

theorem Valid.suits_of_needy (valid : s.Valid) (needy : s.Needy) : s.Suits s.length := by
  refine ⟨valid.length_le_room, fun levels fits => ?_⟩
  have less := lt_of_room_lt (Nat.lt_of_lt_of_le needy fits)
  omega

theorem Valid.suits_of_empty (valid : s.Valid) (zero : s.length = 0) : s.Suits 0 := by
  rw [Suits, valid.depth_eq_zero_iff.mpr zero]
  exact ⟨Nat.le_refl 0, fun levels _ => Nat.zero_le levels⟩

theorem Valid.suits_of_tight (valid : s.Valid) (tight : s.Tight) : s.Suits s.length := by
  by_cases zero : s.length = 0
  · exact zero ▸ valid.suits_of_empty zero
  · exact valid.suits_of_needy (valid.needy tight zero)

/-- What has grown from nothing has no more levels than it needs. -/
theorem Grown.suits (grown : s.Grown s') (valid : s'.Valid) (nothing : s.depth = 0) :
    s'.Suits s'.length := by
  by_cases zero : s'.length = 0
  · exact zero ▸ valid.suits_of_empty zero
  · rcases grown.depth with same | needy
    · exact absurd (valid.depth_eq_zero_iff.mp (same.trans nothing)) zero
    · exact valid.suits_of_needy needy

theorem suits_copy [Allocator σ α] [LawfulAllocator σ α] (s : Sequence α) {depot : Depot σ}
    (sound : LawfulAllocator.Sound depot.allocator) :
    (s.copy.run depot).1.Suits (s.copy.run depot).1.length := by
  have valid := (ensures_copy s depot sound).2.valid
  have empty := valid_empty (α := α) s.options s.firstCapacity
  exact (empty.grown_extend s.toList sound).suits valid rfl

/-- The levels suit the largest length for as long as none is given up, and none is gained without
need. -/
theorem Suits.raise {peak : Nat} (suits : s.Suits peak) (options : s'.options = s.options)
    (valid : s'.Valid) (order : s.depth ≤ s'.depth) (depth : s'.depth = s.depth ∨ s'.Needy) :
    s'.Suits (max peak s'.length) := by
  obtain ⟨enough, least⟩ := suits
  have room : peak ≤ room s'.options.segmentCapacity s'.depth := by
    rw [options]
    exact Nat.le_trans enough (room_mono order)
  refine ⟨Nat.max_le.mpr ⟨room, valid.length_le_room⟩, fun levels fits => ?_⟩
  obtain ⟨fits, fits'⟩ := Nat.max_le.mp fits
  rcases depth with same | needy
  · rw [same]
    rw [options] at fits
    exact least fits
  · exact (valid.suits_of_needy needy).2 fits'

end Sequence

namespace Edit

open Sequence (Valid Suits)

/-- The largest length after a call, given the largest one before it: a sequence that is empty or
has been put in order by a stable sort starts over. -/
def peak (edit : Edit α) (earlier : Nat) (after : Except Failure (Reply α) × Sequence α) : Nat :=
  match after.1, edit with
  | .error _, _ => earlier
  | .ok _, sort _ => after.2.length
  | .ok _, _ => if after.2.length = 0 then 0 else max earlier after.2.length

variable [Allocator σ α] [BEq α] [Inhabited α] {s : Sequence α} {depot : Depot σ} {edit : Edit α}

theorem run_apply_of_refused {failure : Failure} (refused : edit.refusal? s = some failure)
    (depot : Depot σ) : (edit.apply s).run depot = ((.error failure, s), depot) := by
  unfold apply
  rw [refused]
  rfl

theorem run_apply_of_accepted (accepted : edit.refusal? s = none) (depot : Depot σ) :
    (edit.apply s).run depot =
      let after := (edit.perform s).run depot
      ((.ok after.1.1, after.1.2), after.2) := by
  unfold apply
  rw [accepted]
  rfl

omit [BEq α] [Inhabited α] in
theorem peak_of_unsorted (unsorted : ∀ order, edit ≠ sort order) (earlier : Nat)
    (reply : Reply α) (s' : Sequence α) :
    edit.peak earlier (.ok reply, s') = if s'.length = 0 then 0 else max earlier s'.length := by
  cases edit
  case sort order => exact absurd rfl (unsorted order)
  all_goals rfl

variable [LawfulAllocator σ α]

/-- The levels of a sequence suit the largest length after a call as they did before it. -/
theorem suits_apply (edit : Edit α) (valid : s.Valid) {earlier : Nat} (suits : s.Suits earlier)
    (sound : LawfulAllocator.Sound depot.allocator) :
    ((edit.apply s).run depot).1.2.Suits (edit.peak earlier ((edit.apply s).run depot).1) := by
  obtain ⟨-, valid', options⟩ := edit.ensures_apply valid depot sound
  cases refused : edit.refusal? s with
  | some failure =>
    rw [run_apply_of_refused refused]
    exact suits
  | none =>
    have allowed := violation?_eq_none refused
    rw [run_apply_of_accepted refused] at valid' options ⊢
    dsimp only at valid' options ⊢
    -- A stable sort builds the tree anew; any other call raises the largest length so far.
    by_cases sorts : ∃ order, edit = sort order
    · obtain ⟨order, rfl⟩ := sorts
      change ((s.sort order).run depot).1.Suits ((s.sort order).run depot).1.length
      by_cases zero : ((s.sort order).run depot).1.length = 0
      · rw [zero]
        exact Valid.suits_of_empty valid' zero
      · have some : s.length ≠ 0 := valid.length_sort order sound ▸ zero
        exact Valid.suits_of_needy valid' (valid.needy_sort order sound some)
    · have unsorted : ∀ order, edit ≠ sort order := not_exists.mp sorts
      rw [peak_of_unsorted unsorted]
      by_cases zero : ((edit.perform s).run depot).1.2.length = 0
      · rw [if_pos zero]
        exact valid'.suits_of_empty zero
      · rw [if_neg zero]
        have deep := mt valid'.depth_eq_zero_iff.mp zero
        have order := (gains_perform unsorted s depot).1.resolve_left deep
        refine suits.raise options valid' order ?_
        by_cases grows : edit.Grows
        · rcases grown_perform valid grows allowed sound with grown | lowered
          · exact grown.depth
          · exact .inl (lowered.resolve_right deep)
        · exact .inl ((sinks_perform grows unsorted s depot).2.resolve_right deep)

/-- A call makes a sequence deeper only if its elements need the levels. -/
theorem needy_of_deeper (valid : s.Valid) (sound : LawfulAllocator.Sound depot.allocator)
    (deeper : s.depth < ((edit.apply s).run depot).1.2.depth) :
    ((edit.apply s).run depot).1.2.Needy := by
  cases refused : edit.refusal? s with
  | some failure =>
    rw [run_apply_of_refused refused] at deeper
    exact absurd deeper (Nat.lt_irrefl _)
  | none =>
    have allowed := violation?_eq_none refused
    rw [run_apply_of_accepted refused] at deeper ⊢
    dsimp only at deeper ⊢
    by_cases sorts : ∃ order, edit = sort order
    · obtain ⟨order, rfl⟩ := sorts
      refine Valid.needy_sort valid order sound fun none => ?_
      have valid' := (Sequence.ensures_sort valid order depot sound).2.valid
      have flat := valid'.depth_eq_zero_iff.mpr ((valid.length_sort order sound).trans none)
      exact Nat.not_lt_zero _ (flat ▸ deeper)
    have unsorted : ∀ order, edit ≠ sort order := not_exists.mp sorts
    have higher : ¬s.Lowered ((edit.perform s).run depot).1.2 := by
      rintro (same | zero)
      · exact Nat.ne_of_gt deeper same
      · exact Nat.not_lt_zero _ (zero ▸ deeper)
    by_cases grows : edit.Grows
    · rcases grown_perform valid grows allowed sound with grown | lowered
      · exact grown.depth.resolve_left (Nat.ne_of_gt deeper)
      · exact absurd lowered higher
    · exact absurd (sinks_perform grows unsorted s depot).2 higher

/-- What a call does to the depth of a sequence. -/
structure DepthChange (edit : Edit α) (s : Sequence α) (depot : Depot σ)
    (after : (Except Failure (Reply α) × Sequence α) × Depot σ) : Prop where
  /-- Nothing but a stable sort makes a sequence with elements less deep. -/
  kept : (∀ order, edit ≠ sort order) → after.1.2.length ≠ 0 → s.depth ≤ after.1.2.depth
  /-- A level is gained only for an element beyond the last place of the levels below it. -/
  full : ∀ levels, 1 ≤ levels → s.depth ≤ levels → levels < after.1.2.depth →
    s.length ≤ s.options.segmentCapacity * 65536 ^ (levels - 1) ∧
      s.options.segmentCapacity * 65536 ^ (levels - 1) < after.1.2.length
  /-- One element more adds a level to a tree that is full to its last place, and no other. -/
  single : s.length ≠ 0 → after.1.2.length ≤ s.length + 1 → s.depth < after.1.2.depth →
    s.length = s.options.segmentCapacity * 65536 ^ (s.depth - 1) ∧
      after.1.2.depth = s.depth + 1
  /-- Levels are gained one at a time. -/
  told : (∀ order, edit ≠ sort order) →
    after.2.levels = depot.levels ++ gained (max s.depth 1) after.1.2.depth
  /-- A stable sort starts from the first level. -/
  rebuilt : ∀ order, edit = sort order → edit.refusal? s = none →
    after.2.levels = depot.levels ++ gained 1 after.1.2.depth

theorem depthChange (valid : s.Valid) (sound : LawfulAllocator.Sound depot.allocator) :
    edit.DepthChange s depot ((edit.apply s).run depot) := by
  obtain ⟨-, valid', options⟩ := edit.ensures_apply valid depot sound
  have full : ∀ levels, 1 ≤ levels → s.depth ≤ levels →
      levels < ((edit.apply s).run depot).1.2.depth →
      s.length ≤ s.options.segmentCapacity * 65536 ^ (levels - 1) ∧
        s.options.segmentCapacity * 65536 ^ (levels - 1) <
          ((edit.apply s).run depot).1.2.length := by
    intro levels positive order deeper
    have needy := needy_of_deeper valid sound (Nat.lt_of_le_of_lt order deeper)
    rw [Sequence.Needy, options] at needy
    rw [← Sequence.room_of_pos positive]
    constructor
    · exact Nat.le_trans valid.length_le_room (Sequence.room_mono order)
    · exact Nat.lt_of_le_of_lt (Sequence.room_mono (Nat.le_sub_one_of_lt deeper)) needy
  constructor
  · intro unsorted some
    exact (gains_apply unsorted s depot).1.resolve_left (mt valid'.depth_eq_zero_iff.mp some)
  · exact full
  · intro some few deeper
    have positive : 1 ≤ s.depth := Nat.one_le_iff_ne_zero.mpr (mt valid.depth_eq_zero_iff.mp some)
    obtain ⟨below, above⟩ := full s.depth positive (Nat.le_refl _) deeper
    refine ⟨by omega, Nat.le_antisymm (Nat.not_lt.mp fun higher => ?_) deeper⟩
    have beyond := (full (s.depth + 1) (by omega) (Nat.le_succ _) higher).2
    rw [← Sequence.room_of_pos (by omega), Sequence.room_succ positive] at beyond
    rw [← Sequence.room_of_pos positive] at below above
    omega
  · exact fun unsorted => (gains_apply unsorted s depot).2
  · rintro order rfl accepted
    rw [run_apply_of_accepted accepted]
    exact Sequence.levels_sort order s depot

end Edit

namespace Sequence

variable [BEq α] [Inhabited α] {s : Sequence α}

/-- A sequence that public operations lead to, with the largest length that it has had since it was
last empty, made, or put in order by a stable sort. -/
inductive Peaked : Sequence α → Nat → Prop
  | withCapacity (hint : Nat) (options : Options) : Peaked (withCapacity hint options) 0
  | edit {σ : Type} [Allocator σ α] [LawfulAllocator σ α] (edit : Edit α) (depot : Depot σ)
      {s : Sequence α} {peak : Nat} (sound : LawfulAllocator.Sound depot.allocator)
      (earlier : Peaked s peak) :
      Peaked ((edit.apply s).run depot).1.2 (edit.peak peak ((edit.apply s).run depot).1)
  | copy {σ : Type} [Allocator σ α] [LawfulAllocator σ α] (depot : Depot σ) {s : Sequence α}
      {peak : Nat} (sound : LawfulAllocator.Sound depot.allocator) (earlier : Peaked s peak) :
      Peaked (s.copy.run depot).1 (s.copy.run depot).1.length
  | restore {σ ω : Type} [Allocator σ α] [LawfulAllocator σ α] [Source ω α] (source : ω)
      (depot : Depot σ) {s : Sequence α} (sound : LawfulAllocator.Sound depot.allocator)
      (restored : ((Snapshot.restore source).run depot).1.1 = .ok s) : Peaked s s.length

theorem Peaked.reachable {peak : Nat} (peaked : s.Peaked peak) : s.Reachable := by
  induction peaked with
  | withCapacity hint options => exact .withCapacity hint options
  | edit edit depot sound _ reachable => exact .edit edit depot sound reachable
  | copy depot sound _ reachable => exact .copy depot sound reachable
  | restore source depot sound restored => exact .restore source depot sound restored

/-- Every sequence that public operations lead to has a largest length. -/
theorem Reachable.exists_peaked (reachable : s.Reachable) : ∃ peak, s.Peaked peak := by
  induction reachable with
  | withCapacity hint options => exact ⟨_, .withCapacity hint options⟩
  | edit edit depot sound _ earlier =>
    obtain ⟨peak, peaked⟩ := earlier
    exact ⟨_, .edit edit depot sound peaked⟩
  | copy depot sound _ earlier =>
    obtain ⟨peak, peaked⟩ := earlier
    exact ⟨_, .copy depot sound peaked⟩
  | restore source depot sound restored => exact ⟨_, .restore source depot sound restored⟩

theorem Peaked.suits {peak : Nat} (peaked : s.Peaked peak) : s.Suits peak := by
  induction peaked with
  | withCapacity hint options => exact (valid_empty options _).suits_of_empty rfl
  | edit edit depot sound earlier suits =>
    exact edit.suits_apply earlier.reachable.valid suits sound
  | copy depot sound => exact suits_copy _ sound
  | restore source depot sound restored =>
    obtain ⟨metadata, options, laid⟩ := Snapshot.exists_laidOut sound restored
    exact laid.valid.suits_of_tight laid.tight

/-- One call more in a run of calls. -/
theorem Peaked.concat {edits : List (Edit α)} {earlier later : Nat}
    (peaked : (onHeap edits).Peaked earlier) (edit : Edit α)
    (same : edit.peak earlier
      ((edit.apply (onHeap edits)).run ({ allocator := ⟨⟩ } : Depot (Heap α))).1 = later) :
    (onHeap (edits ++ [edit])).Peaked later := by
  rw [onHeap, List.foldl_concat, ← same]
  exact .edit edit _ trivial peaked

/-- The depth of a sequence is the least with room for the largest length that it has had, and a
call gains levels one at a time and only for elements beyond the last place of the tree. -/
theorem Peaked.depth_law {peak : Nat} (peaked : s.Peaked peak) :
    (s.length ≠ 0 → IsLeast
        {levels | 1 ≤ levels ∧ peak ≤ s.options.segmentCapacity * 65536 ^ (levels - 1)}
        s.depth) ∧
      ∀ {σ : Type} [Allocator σ α] [LawfulAllocator σ α] (edit : Edit α) (depot : Depot σ),
        LawfulAllocator.Sound depot.allocator →
          edit.DepthChange s depot ((edit.apply s).run depot) := by
  have valid := peaked.reachable.valid
  refine ⟨fun some => ?_, fun edit depot sound => Edit.depthChange valid sound⟩
  obtain ⟨enough, least⟩ := peaked.suits
  have positive : 1 ≤ s.depth := Nat.one_le_iff_ne_zero.mpr (mt valid.depth_eq_zero_iff.mp some)
  constructor
  · exact ⟨positive, room_of_pos positive ▸ enough⟩
  · rintro levels ⟨positive', fits⟩
    rw [← room_of_pos positive'] at fits
    exact least fits

/-- Sixteen elements in the two levels that a seventeenth has needed. -/
def shrunk : Sequence Nat := onHeap [.extend (List.range 17), .removeAt 3]

theorem peaked_shrunk : shrunk.Peaked 17 := by
  have empty : (onHeap ([] : List (Edit Nat))).Peaked 0 := .withCapacity 0 _
  have grown : (onHeap [.extend (List.range 17)]).Peaked 17 :=
    empty.concat (.extend (List.range 17)) (by decide +kernel)
  exact grown.concat (.removeAt 3) (by decide +kernel)

theorem depth_law_of_shrunk :
    shrunk.Peaked 17 ∧ shrunk.length = 16 ∧
      IsLeast {levels | 1 ≤ levels ∧ 17 ≤ shrunk.options.segmentCapacity * 65536 ^ (levels - 1)}
        shrunk.depth := by
  have length : shrunk.length = 16 := by decide +kernel
  exact ⟨peaked_shrunk, length, (Peaked.depth_law peaked_shrunk).1 (by rw [length]; decide)⟩

end Sequence

end Segmented
